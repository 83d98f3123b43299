import LoxScript.Proofs.Grammar.Blame
import LoxScript.Proofs.Grammar.Targets
import LoxScript.Proofs.Run.Clean

/-!
# Incomplete sources

A source counts as incomplete if its only errors are syntax errors that blame its end. Such a source
can be continued so that it is scanned without an error and no declaration of it is dropped, and a
faulty source that can be continued in this way counts as incomplete, unless the target of an
assignment in it has been found invalid already (`isIncomplete_iff_continuable`).

The target of an assignment is judged only after the value has been read. So `1 =` counts as
incomplete although there is an error in whatever continues it (`isIncomplete_assignedNumber`).
-/

namespace LoxScript

/-! ## The text of what finishes a construct -/

namespace Filler

/-- The piece of a source that becomes such a token. -/
def piece : Filler → Piece
  | operand => .word ['n', 'i', 'l']
  | name => .word ['a']
  | semicolon => .sign [';'] .semicolon
  | leftParen => .sign ['('] .leftParen
  | rightParen => .sign [')'] .rightParen
  | rightBrace => .sign ['\x7d'] .rightBrace

/-- The tokens as a text, each of them behind a blank. -/
def text : List Filler → List Char
  | [] => []
  | f :: fs => ' ' :: (f.piece.chars ++ text fs)

theorem head?_text {c : Char} (fs : List Filler) (h : (text fs).head? = some c) : c = ' ' := by
  cases fs with
  | nil => cases h
  | cons f fs =>
    cases h
    rfl

theorem first_piece (f : Filler) {rest : List Char} (h : ∀ c, rest.head? = some c → c = ' ') :
    ∃ c cs, f.piece.chars = c :: cs ∧ isGap c = false ∧
      Piece.first c (cs ++ rest) = (f.piece, rest) := by
  cases rest with
  | nil => cases f <;> exact ⟨_, _, rfl, rfl, rfl⟩
  | cons c rest =>
    obtain rfl := h c rfl
    cases f <;> exact ⟨_, _, rfl, rfl, rfl⟩

theorem pieces_text (fs : List Filler) :
    pieces (text fs) = fs.flatMap fun f => [.blanks [' '], f.piece] := by
  induction fs with
  | nil => simp [text, pieces]
  | cons f fs ih =>
    obtain ⟨c, cs, hchars, hgap, hfirst⟩ := f.first_piece fun c => head?_text (c := c) fs
    have hblank : Piece.first ' ' (c :: (cs ++ text fs)) =
        (.blanks [' '], c :: (cs ++ text fs)) := by
      have hspace : isGap ' ' = true := rfl
      simp [Piece.first, hspace, hgap]
    rw [text, hchars, List.cons_append, pieces_cons, hblank, pieces_cons, hfirst, ih]
    rfl

theorem tokensOf_text (line : Int) (fs : List Filler) :
    Scan.tokensOf line (pieces (text fs)) = tokens line fs := by
  have htoken : ∀ f : Filler, f.piece.token? line = some (f.token line) := by
    intro f
    cases f <;> rfl
  have hline : ∀ f : Filler, Text.newlines f.piece.chars = 0 := by
    intro f
    cases f <;> rfl
  have hblank : Text.newlines (Piece.blanks [' ']).chars = 0 := rfl
  rw [pieces_text]
  induction fs with
  | nil => rfl
  | cons f fs ih =>
    rw [List.flatMap_cons, List.cons_append, Scan.tokensOf, List.singleton_append, Scan.tokensOf]
    simp only [hline, hblank, htoken, Int.natCast_zero, Int.add_zero, ih]
    rfl

theorem error?_text (fs : List Filler) : ∀ p ∈ pieces (text fs), p.error? 0 = none := by
  intro p hp
  rw [pieces_text] at hp
  obtain ⟨f, -, hp⟩ := List.mem_flatMap.mp hp
  simp only [List.mem_cons, List.not_mem_nil, or_false] at hp
  rcases hp with rfl | rfl
  · rfl
  · cases f <;> rfl

end Filler

/-- Such tokens can be written on a line of their own behind a source. -/
theorem Scan.bare_filled {source : String} (h : (ofSource source).errors = [])
    (fs : List Filler) :
    (ofSource (source ++ "\n" ++ String.ofList (Filler.text fs))).errors = [] ∧
      bare (source ++ "\n" ++ String.ofList (Filler.text fs)) =
        bare source ++ Filler.tokens (1 + (height (pieces source.toList) + 1)) fs := by
  have hclosed : Closed source := closed_of_errors (by simp [h])
  constructor
  · refine (errors_joined hclosed _).mpr ⟨h, ?_⟩
    rw [ofSource, ofPieces_eq, String.toList_ofList]
    exact (errorsOf_eq_nil_iff 1 _).mpr (Filler.error?_text fs)
  · rw [bare_joined hclosed, ← Filler.tokensOf_text, tokensOf_add]
    unfold bare
    rw [String.toList_ofList]

/-- The tokens of a source that is continued. -/
theorem Scan.bare_continued {source t : String} (h : (ofSource source).errors = []) :
    ∃ us, (∀ u ∈ us, Cursor.isProper u = true) ∧
      bare (source ++ "\n" ++ t) = bare source ++ us := by
  have hclosed : Closed source := closed_of_errors (by simp [h])
  exact ⟨_, Cursor.isProper_moved (isProper_bare t), bare_joined hclosed t⟩

/-! ## What can be continued -/

/-- The source is scanned without an error, and no declaration of it is dropped: the only errors
are about the targets of assignments. -/
structure Whole (nesting : Nat) (source : String) : Prop where
  lexical : (Scan.ofSource source).errors = []
  syntactic : ∀ e ∈ (Program.ofTokens nesting (Scan.ofSource source).tokens).errors,
    e.cause = .invalidTarget

section

variable {b : Bounds} {source : String}

/-- What counts as incomplete breaks off at its end, and has no other error. -/
theorem firstBreak_of_isIncomplete (h : isIncomplete b source = true) :
    ∃ e, Program.firstBreak b.nesting (Scan.ofSource source).tokens =
        some (e, (Scan.bare source).length) ∧
      (Program.ofTokens b.nesting (Scan.ofSource source).tokens).errors = [e] := by
  obtain ⟨-, hfaulty, hend⟩ := isIncomplete_iff_errors.mp h
  have hproper := Scan.isProper_bare source
  have hequal : ∀ f ∈ (Program.ofTokens b.nesting (Scan.ofSource source).tokens).errors,
      f.token.kind ≠ .equal := by
    intro f hf
    simp [hend f hf]
  have hpanicked : (Program.ofTokens b.nesting (Scan.ofSource source).tokens).panicked = true := by
    by_contra hkept
    obtain ⟨f, hf⟩ := List.exists_mem_of_ne_nil _ hfaulty
    exact hequal f hf (Program.targets_of_kept ((Bool.not_eq_true _).mp hkept) f hf).2
  obtain ⟨e, i, hbreak⟩ := Program.exists_firstBreak hpanicked
  rw [Scan.tokens_ofSource] at hbreak hend hequal ⊢
  obtain ⟨es, fs, herrors, hlast, htargets⟩ := Program.errors_of_firstBreak hproper rfl hbreak
  rw [herrors] at hend hequal
  obtain rfl : es = [] := by
    refine List.eq_nil_iff_forall_not_mem.mpr fun f hf => ?_
    exact hequal f (List.mem_append_left _ hf) (htargets f hf).2
  rcases Program.blamed_of_firstBreak hproper rfl hbreak with ⟨-, hmem⟩ | ⟨rfl, -⟩
  · have hkind : e.token.kind = .endMark := hend e (by simp)
    have htoken := hproper _ hmem
    simp [Cursor.isProper, hkind] at htoken
  · exact ⟨e, hbreak, by rw [herrors, hlast rfl]; rfl⟩

theorem exists_whole_of_isIncomplete
    (hdeep : ¬ Program.TooDeep b.nesting (Scan.ofSource source).tokens) {room : Nat}
    (hroom : b.nesting + 3 ≤ room) (h : isIncomplete b source = true) :
    ∃ t, Whole room (source ++ "\n" ++ t) := by
  obtain ⟨hlexical, -, -⟩ := isIncomplete_iff_errors.mp h
  obtain ⟨e, hbreak, herrors⟩ := firstBreak_of_isIncomplete h
  have he : e.cause ≠ .tooDeep := fun hcause => hdeep ⟨e, by simp [herrors], hcause⟩
  rw [Scan.tokens_ofSource] at hbreak
  obtain ⟨fs, hfs⟩ := Program.completion_of_firstBreak (Scan.isProper_bare source) rfl hbreak he
    hroom (1 + (Scan.height (pieces source.toList) + 1))
  obtain ⟨hlexical, hbare⟩ := Scan.bare_filled hlexical fs
  refine ⟨_, hlexical, fun f hf => ?_⟩
  rw [Scan.tokens_ofSource, hbare] at hf
  rw [List.take_length] at hfs
  exact (Program.targets_of_kept (hfs _ rfl) f hf).1

theorem isIncomplete_of_whole {room : Nat} {t : String}
    (hdeep : ¬ Program.TooDeep b.nesting (Scan.ofSource source).tokens)
    (hlexical : (Scan.ofSource source).errors = [])
    (hfaulty : (Program.ofTokens b.nesting (Scan.ofSource source).tokens).errors ≠ [])
    (htargets : ∀ f ∈ (Program.ofTokens b.nesting (Scan.ofSource source).tokens).errors,
      f.cause ≠ .invalidTarget)
    (h : Whole room (source ++ "\n" ++ t)) : isIncomplete b source = true := by
  have hproper := Scan.isProper_bare source
  have hpanicked : (Program.ofTokens b.nesting (Scan.ofSource source).tokens).panicked = true := by
    obtain ⟨f, hf⟩ := List.exists_mem_of_ne_nil _ hfaulty
    rw [Scan.tokens_ofSource] at htargets hf ⊢
    exact (Program.panicked_iff hproper rfl).mpr ⟨f, hf, htargets f hf⟩
  -- the first break blames a token of the source, or its end
  obtain ⟨e, i, hbreak⟩ := Program.exists_firstBreak hpanicked
  rw [Scan.tokens_ofSource] at htargets hdeep hbreak
  obtain ⟨es, fs, herrors, hlast, hnoted⟩ := Program.errors_of_firstBreak hproper rfl hbreak
  rcases Program.blamed_of_firstBreak hproper rfl hbreak with ⟨hi, -⟩ | ⟨rfl, htoken⟩
  · -- then whatever follows, a declaration is dropped, but none is dropped of the continued source
    have he : e.cause ≠ .tooDeep := fun hcause => hdeep ⟨e, by simp [herrors], hcause⟩
    obtain ⟨us, hus, hbare⟩ := Scan.bare_continued (t := t) hlexical
    have hlater : ∀ u ∈ (Scan.bare source).drop (i + 1) ++ us, Cursor.isProper u = true :=
      Cursor.isProper_append (fun u hu => hproper u (List.mem_of_mem_drop hu)) hus
    have hdropped := Program.panicked_of_firstBreak hproper rfl hbreak he hi hlater
      (y := Scan.endOf (source ++ "\n" ++ t)) rfl room
    rw [← List.append_assoc, List.take_append_drop, ← hbare] at hdropped
    obtain ⟨f, hf, hcause⟩ := (Program.panicked_iff (Scan.isProper_bare _) rfl).mp hdropped
    rw [← Scan.tokens_ofSource] at hf
    exact absurd (h.syntactic f hf) hcause
  · obtain rfl : es = [] := by
      refine List.eq_nil_iff_forall_not_mem.mpr fun f hf => ?_
      exact htargets f (by simp [herrors, hf]) (hnoted f hf).1
    rw [hlast rfl, ← Scan.tokens_ofSource] at herrors
    exact isIncomplete_of_endError hlexical herrors htoken

/-- A source counts as incomplete exactly if it has no lexical error but syntax errors, none of them
about the target of an assignment, and can be continued so that no declaration is dropped. The
continuation may need three more levels of nesting. -/
theorem isIncomplete_iff_continuable
    (hdeep : ¬ Program.TooDeep b.nesting (Scan.ofSource source).tokens) {room : Nat}
    (hroom : b.nesting + 3 ≤ room) :
    isIncomplete b source = true ↔
      (Scan.ofSource source).errors = [] ∧
      (Program.ofTokens b.nesting (Scan.ofSource source).tokens).errors ≠ [] ∧
      (∀ e ∈ (Program.ofTokens b.nesting (Scan.ofSource source).tokens).errors,
        e.cause ≠ .invalidTarget) ∧
      ∃ t, Whole room (source ++ "\n" ++ t) := by
  constructor
  · intro h
    obtain ⟨hlexical, hfaulty, hend⟩ := isIncomplete_iff_errors.mp h
    obtain ⟨e, hbreak, herrors⟩ := firstBreak_of_isIncomplete h
    have hcause : e.cause ≠ .invalidTarget := by
      obtain ⟨s₁, hbreak, -⟩ := Program.exists_of_firstBreak hbreak
      exact Parse.cause_firstBreak hbreak fun hcause => hdeep ⟨e, by simp [herrors], hcause⟩
    refine ⟨hlexical, hfaulty, fun f hf => ?_, exists_whole_of_isIncomplete hdeep hroom h⟩
    rw [herrors] at hf
    rwa [List.mem_singleton.mp hf]
  · rintro ⟨hlexical, hfaulty, htargets, t, ht⟩
    exact isIncomplete_of_whole hdeep hlexical hfaulty htargets ht

/-- A faulty source counts as incomplete if it can be continued without any error. -/
theorem isIncomplete_of_clean {t : String} {ss : List Stmt}
    (hlexical : (Scan.ofSource source).errors = [])
    (hfaulty : (Program.ofTokens b.nesting (Scan.ofSource source).tokens).errors ≠ [])
    (h : Clean b.nesting (source ++ "\n" ++ t) ss) : isIncomplete b source = true := by
  obtain ⟨us, hus, hbare⟩ := Scan.bare_continued (t := t) hlexical
  have hsyntactic := h.syntactic
  rw [Scan.tokens_ofSource, hbare] at hsyntactic
  rcases Program.errors_of_beginning (Scan.isProper_bare source) hus (y := Scan.endOf source) rfl
    rfl hsyntactic with herrors | ⟨e, herrors, he⟩
  · rw [← Scan.tokens_ofSource] at herrors
    exact absurd herrors hfaulty
  · rw [← Scan.tokens_ofSource] at herrors
    exact isIncomplete_of_endError hlexical herrors he

end

/-- An unclosed block in which a group is not closed is incomplete. -/
theorem isIncomplete_openGroup :
    isIncomplete {} "\x7b print (nil" = true ∧
      ∃ t, Whole 1003 ("\x7b print (nil" ++ "\n" ++ t) := by
  have h : isIncomplete {} "\x7b print (nil" = true := by decide +kernel
  have hdeep : ¬ Program.TooDeep 1000 (Scan.ofSource "\x7b print (nil").tokens := by
    have herrors : ∀ e ∈ (Program.ofTokens 1000 (Scan.ofSource "\x7b print (nil").tokens).errors,
        e.cause ≠ .tooDeep := by decide +kernel
    rintro ⟨e, he, hcause⟩
    exact herrors e he hcause
  exact ⟨h, ((isIncomplete_iff_continuable (b := {}) hdeep (Nat.le_refl 1003)).mp h).2.2.2⟩

/-- Nothing makes up for an equals sign behind a token that is no name. -/
theorem errors_of_nameless {source : String} {us vs : List Token} {u sign : Token}
    (hlexical : (Scan.ofSource source).errors = [])
    (hbare : Scan.bare source = us ++ u :: sign :: vs) (hu : u.kind ≠ .identifier)
    (hs : sign.kind = .equal) (room : Nat) (t : String) :
    (Program.ofTokens room (Scan.ofSource (source ++ "\n" ++ t)).tokens).errors ≠ [] := by
  have hproper : ∀ u' ∈ us ++ [u], Cursor.isProper u' = true := by
    intro u' hu'
    refine Scan.isProper_bare source u' ?_
    rw [hbare, List.append_cons]
    exact List.mem_append_left _ hu'
  obtain ⟨ws, -, hcontinued⟩ := Scan.bare_continued (t := t) hlexical
  rw [Scan.tokens_ofSource, hcontinued, hbare, List.append_assoc, List.append_assoc]
  exact Program.errors_of_nameless hproper hu hs

/-- What counts as incomplete need not have a continuation without an error. -/
theorem isIncomplete_assignedNumber :
    isIncomplete {} "1 =" = true ∧ ∀ room t,
      (Program.ofTokens room (Scan.ofSource ("1 =" ++ "\n" ++ t)).tokens).errors ≠ [] := by
  have hlexical : (Scan.ofSource "1 =").errors = [] := by decide +kernel
  have hbare : Scan.bare "1 =" = [] ++ ⟨.number, "1", .number (Decimal.ofDigits ['1'] []), 1⟩ ::
      ⟨.equal, "=", .nil, 1⟩ :: [] := by decide +kernel
  exact ⟨by decide +kernel, errors_of_nameless hlexical hbare (by decide) rfl⟩

end LoxScript
