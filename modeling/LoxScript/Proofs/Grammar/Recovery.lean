import LoxScript.Proofs.Grammar.Blame
import LoxScript.Proofs.Grammar.Boundary

/-!
# Errors within blocks

A block in which an error breaks something off is dropped as a whole, together with the error. But
recovery knows nothing of blocks: reading goes on at the first boundary behind the token that is
blamed, which may be within the block, and then the rest of the block is read as a program of its
own, or behind the block, if what follows does not begin with a word that starts a statement
(`Program.parts_of_block`). So a block with an error costs exactly one report and no other
declaration in the case that it holds no boundary behind the error and one follows it, and in this
case only (`Program.resumes_at_boundary`).
-/

namespace LoxScript

open ParseState

namespace Program

section

variable {room i : Nat} {ts us : List Token} {x y z : Token} {e : SyntaxError}

/-- It is the first declaration of a block that breaks off, which begins with the block: nothing
that ends within the block is a declaration. -/
theorem exists_error_of_enclosed (hts : ∀ t ∈ ts, Cursor.isProper t = true)
    (hy : Cursor.isProper y = false) (henclosed : Enclosed ts)
    (h : firstBreak room (ts ++ [y]) = some (e, i)) :
    ∃ s₁, Parse.declaration room (.ofTokens (ts ++ [y])) = .error e s₁ ∧
      i = s₁.cursor.position := by
  obtain ⟨s₁, hbreak, rfl⟩ := exists_of_firstBreak h
  have hrest : (ParseState.ofTokens (ts ++ [y])).cursor.rest = ts := by rw [ofTokens_closed hts hy]
  have hpos : 0 < ts.length := List.length_pos_iff.mpr henclosed.ne_nil
  obtain ⟨fuel, hfuel⟩ : ∃ n, ts.length = n + 1 := ⟨ts.length - 1, by omega⟩
  rw [hrest, hfuel, Parse.firstBreak_succ (by rw [hrest]; exact henclosed.ne_nil)] at hbreak
  split at hbreak
  · next d s' hd =>
    obtain ⟨us, es, hs, hus⟩ := Parse.balances_declaration room _ d s' hd
    have hlt := Parse.consumes_declaration room _ d s' hd
    have hsplit : ts = us ++ s'.cursor.rest := hrest.symm.trans hs.1
    have hne : us ≠ [] := by
      rintro rfl
      rw [hs.1] at hlt
      exact Nat.lt_irrefl _ hlt
    have hend : s'.cursor.rest = [] := by
      by_contra hmore
      rw [hsplit] at henclosed
      exact henclosed.not_balanced_beginning hne hmore hus
    rw [Parse.firstBreak_of_end hend] at hbreak
    cases hbreak
  · next e' s' hd =>
    cases hbreak
    exact ⟨_, hd, rfl⟩

/-- Reading on is reading the program that the tokens to come make up. -/
theorem ofTokens_of_rest {s : ParseState} (hts : ∀ t ∈ ts, Cursor.isProper t = true)
    (hz : Cursor.isProper z = false) (hrest : s.cursor.rest = ts) (hstop : s.cursor.stop = z) :
    (Parse.program room s).1 = (ofTokens room (ts ++ [z])).statements ∧
      (Parse.program room s).2.noted = s.noted ++ (ofTokens room (ts ++ [z])).errors := by
  have hahead : Ahead (ParseState.ofTokens (ts ++ [z])) s := by
    rw [ofTokens_closed hts hz]
    exact ⟨hrest, hstop⟩
  obtain ⟨hstatements, -, es, hnoted, hnoted'⟩ := Parse.program_ahead room hahead
  rw [noted_ofTokens, List.nil_append] at hnoted
  exact ⟨hstatements, hnoted'.trans (congrArg (s.noted ++ ·) hnoted.symm)⟩

/-- Whatever follows the block, reading goes on at the first boundary behind the token that is
blamed, and what is left there is read as it is by itself. -/
theorem parts_of_block (hts : ∀ t ∈ ts, Cursor.isProper t = true)
    (hy : Cursor.isProper y = false) (henclosed : Enclosed ts)
    (h : firstBreak room (ts ++ [y]) = some (e, i)) (hi : i < ts.length) :
    ∃ es, (∀ f ∈ es, f.cause = .invalidTarget) ∧ ∀ us z,
      (∀ t ∈ us, Cursor.isProper t = true) → Cursor.isProper z = false →
      (ofTokens room (ts ++ us ++ [z])).statements =
          (ofTokens room (Cursor.resume ((ts ++ us).drop i) ++ [z])).statements ∧
        (ofTokens room (ts ++ us ++ [z])).errors =
          es ++ e :: (ofTokens room (Cursor.resume ((ts ++ us).drop i) ++ [z])).errors ∧
        (ofTokens room (ts ++ us ++ [z])).panicked = true := by
  obtain ⟨s₁, hd, rfl⟩ := exists_error_of_enclosed hts hy henclosed h
  obtain ⟨vs, es, hs⟩ := ((Parse.composed_declaration room).frames.of_error hd).leads
  obtain ⟨hposition, hsplit, -⟩ := leads_ofTokens hts hy hs
  -- the blamed token stands within the block, and not at the end
  obtain ⟨u, ws, hu⟩ : ∃ u ws, s₁.cursor.rest = u :: ws := by
    refine List.exists_cons_of_ne_nil fun hnil => ?_
    rw [hposition, hsplit, hnil, List.append_nil] at hi
    exact Nat.lt_irrefl _ hi
  have htargets : ∀ f ∈ es, f.cause = .invalidTarget := by
    obtain ⟨es', hes, htargets⟩ := (Parse.composed_declaration room).notesTargets.of_error hd
    obtain rfl : es = es' := List.append_cancel_left (hs.noted.symm.trans hes)
    exact fun f hf => (htargets f hf).1
  refine ⟨es, htargets, fun us z hus hz => ?_⟩
  have hproper := Cursor.isProper_append hts hus
  have hlong := ofTokens_closed hproper hz
  have hdrop : (ts ++ us).drop s₁.cursor.position = s₁.cursor.rest ++ us := by
    rw [hposition, hsplit, List.append_assoc]
    exact List.drop_left
  have ht : (ParseState.ofTokens (ts ++ us ++ [z])).cursor.rest = vs ++ (s₁.cursor.rest ++ us) := by
    rw [hlong, ← List.append_assoc, ← hsplit]
  -- the token that is blamed is the same as without what follows
  have hd' := Parse.declaration_breaks hd hs ht (by rw [hu]; rfl)
    (by rw [Cursor.current, Cursor.current, rest_after_append ht, hu]; rfl)
  have hread := Parse.program_of_error (by rw [ht, hu]; simp) hd'
  -- behind the boundary comes what is left of the block, and what follows it
  have hresumed : ∀ t ∈ Cursor.resume ((ts ++ us).drop s₁.cursor.position),
      Cursor.isProper t = true :=
    fun t ht => hproper t (List.mem_of_mem_drop (Cursor.mem_of_mem_resume ht))
  obtain ⟨hstatements, herrors⟩ : (Parse.program room
        (((ParseState.ofTokens (ts ++ us ++ [z])).after vs.length es).recover e)).1 = _ ∧ _ :=
    ofTokens_of_rest hresumed hz (by rw [rest_recover, rest_after_append ht, hdrop])
      (by rw [stop_recover, hlong]; exact stop_behind _ _)
  refine ⟨?_, ?_, ?_⟩
  · rw [← hstatements, ← hread]
    rfl
  · have hnoted := congrArg (fun r => r.2.noted) hread
    refine hnoted.trans (herrors.trans ?_)
    rw [noted_recover]
    simp [ParseState.after]
  · have hpanicked := congrArg (fun r => r.2.panicked) hread
    exact hpanicked.trans (Parse.panicked_program rfl)

/-- Statements that are read without an error are the only ones that the tokens derive. -/
theorem statements_of_declarations {ss : List Stmt} (hts : ∀ t ∈ ts, Cursor.isProper t = true)
    (hz : Cursor.isProper z = false) (h : Declarations ts ss)
    (herrors : (ofTokens room (ts ++ [z])).errors = []) :
    (ofTokens room (ts ++ [z])).statements = ss := by
  have hnoted : (Parse.program room (.ofTokens (ts ++ [z]))).2.noted = [] := herrors
  have hderived : Declarations (ParseState.ofTokens (ts ++ [z])).cursor.rest ss := by
    rwa [ofTokens_closed hts hz]
  have hread : Parse.program room (.ofTokens (ts ++ [z])) = (ss, _) :=
    Parse.program_of_declarations hderived (by simp [hnoted])
  exact congrArg Prod.fst hread

/-- If the rest of a program without errors, from the next boundary on, is without errors and has
the same statements, then the program begins at a boundary. -/
theorem startsStatement_of_resume (hus : ∀ t ∈ us, Cursor.isProper t = true)
    (hz : Cursor.isProper z = false) (h : (ofTokens room (us ++ [z])).errors = [])
    (h' : (ofTokens room (Cursor.resume us ++ [z])).errors = [])
    (hsame : (ofTokens room (Cursor.resume us ++ [z])).statements =
      (ofTokens room (us ++ [z])).statements) :
    ∀ t, us.head? = some t → t.kind.startsStatement = true := by
  intro t ht
  by_contra hother
  have hresumed : ∀ t ∈ Cursor.resume us, Cursor.isProper t = true :=
    fun t ht => hus t (Cursor.mem_of_mem_resume ht)
  have hlater := declarations_of_errors hresumed hz h'
  obtain ⟨ss, hss, hlt⟩ := (declarations_of_errors hus hz h).of_resume ht
    ((Bool.not_eq_true _).mp hother) hlater.balanced
  rw [← hsame, statements_of_declarations hresumed hz hss h'] at hlt
  exact Nat.lt_irrefl _ hlt

/-- What follows the block is read as it is by itself exactly if the rest of the block is skipped, and
nothing else. -/
theorem kept_behind_block {block behind : List Token}
    (hblock : ∀ t ∈ block, Cursor.isProper t = true)
    (hbehind : ∀ t ∈ behind, Cursor.isProper t = true) (hz : Cursor.isProper z = false)
    (hclean : (ofTokens room (behind ++ [z])).errors = []) (henclosed : Enclosed block)
    (hi : i < block.length) :
    ((ofTokens room (Cursor.resume ((block ++ behind).drop i) ++ [z])).errors = [] ∧
        (ofTokens room (Cursor.resume ((block ++ behind).drop i) ++ [z])).statements =
          (ofTokens room (behind ++ [z])).statements) ↔
      Cursor.resume (block.drop i) = [] ∧
        ∀ t, behind.head? = some t → t.kind.startsStatement = true := by
  rw [List.drop_append_of_le_length (Nat.le_of_lt hi)]
  rw [← List.take_append_drop i block] at henclosed
  have hne : block.drop i ≠ [] := fun hnil => Nat.not_le_of_lt hi (List.drop_eq_nil_iff.mp hnil)
  constructor
  · rintro ⟨herrors, hstatements⟩
    have hproper : ∀ t ∈ Cursor.resume (block.drop i ++ behind), Cursor.isProper t = true := by
      intro t ht
      rcases List.mem_append.mp (Cursor.mem_of_mem_resume ht) with ht | ht
      · exact hblock t (List.mem_of_mem_drop ht)
      · exact hbehind t ht
    -- what is left of a block has a brace too many, unless nothing is left of it
    have hend := henclosed.resume_eq_nil hne (declarations_of_errors hproper hz herrors).balanced
    refine ⟨hend, ?_⟩
    rcases henclosed.resume_behind hne hend behind with ⟨hword, -⟩ | ⟨-, hresume⟩
    · exact hword
    · rw [hresume] at herrors hstatements
      exact startsStatement_of_resume hbehind hz hclean herrors hstatements
  · rintro ⟨hend, hword⟩
    rcases henclosed.resume_behind hne hend behind with ⟨-, hresume⟩ | ⟨⟨t, ht, hother⟩, -⟩
    · rw [hresume]
      exact ⟨hclean, rfl⟩
    · rw [hword t ht] at hother
      cases hother

/-- An error that is about something else than a target comes first if nothing comes before it. -/
theorem head?_errors {es fs : List SyntaxError} (hes : ∀ f ∈ es, f.cause = .invalidTarget)
    (he : e.cause ≠ .invalidTarget) : (es ++ e :: fs).head? = some e ↔ es = [] := by
  cases es with
  | nil => simp
  | cons f es =>
    have hf := hes f List.mem_cons_self
    simp only [List.cons_append, List.head?_cons, Option.some.injEq, reduceCtorEq, iff_false]
    rintro rfl
    exact he hf

/-- If an error breaks off a block between two programs without errors, then the statements are those
of the first program and those that are read from the first boundary on behind the token that is
blamed, wherever it is, as declarations of the outermost level; and the errors are those noted in the
block before, the one that breaks it off, and those of what is read from there on. So there is one
report, and no other declaration is lost or made up, exactly if it is the first error of the block, no
boundary follows it within the block, and what stands behind the block begins with a word that starts
a statement, or is nothing at all. -/
theorem resumes_at_boundary {before block behind : List Token}
    (hbefore : ∀ t ∈ before, Cursor.isProper t = true)
    (hblock : ∀ t ∈ block, Cursor.isProper t = true)
    (hbehind : ∀ t ∈ behind, Cursor.isProper t = true)
    (hx : Cursor.isProper x = false) (hy : Cursor.isProper y = false)
    (hz : Cursor.isProper z = false)
    (hclean : (ofTokens room (before ++ [x])).errors = [])
    (hclean' : (ofTokens room (behind ++ [z])).errors = [])
    (henclosed : Enclosed block) (hbreak : firstBreak room (block ++ [y]) = some (e, i))
    (hi : i < block.length) :
    let whole := ofTokens room (before ++ block ++ behind ++ [z])
    let later := ofTokens room (Cursor.resume ((block ++ behind).drop i) ++ [z])
    (∃ es, (∀ f ∈ es, f.cause = .invalidTarget) ∧ e.cause ≠ .invalidTarget ∧
      (ofTokens room (block ++ [y])).errors =
        es ++ e :: (ofTokens room (Cursor.resume (block.drop i) ++ [y])).errors ∧
      whole.errors = es ++ e :: later.errors ∧
      whole.statements = (ofTokens room (before ++ [x])).statements ++ later.statements ∧
      whole.panicked = true) ∧
    (whole.diagnostics.length = 1 ∧
        whole.statements = (ofTokens room (before ++ [x])).statements ++
          (ofTokens room (behind ++ [z])).statements ↔
      (ofTokens room (block ++ [y])).errors.head? = some e ∧ Cursor.resume (block.drop i) = [] ∧
        ∀ t, behind.head? = some t → t.kind.startsStatement = true) := by
  intro whole later
  obtain ⟨es, htargets, hparts⟩ := parts_of_block hblock hy henclosed hbreak hi
  have hcause := cause_of_firstBreak hbreak
  obtain ⟨-, herrors, -⟩ := hparts [] y (by simp) hy
  rw [List.append_nil] at herrors
  obtain ⟨hstatements, herrors', hpanicked⟩ := hparts behind z hbehind hz
  -- what stands in front is read as before
  have helse : Parse.NoElse (block ++ behind) := by
    obtain ⟨left, inner, right, rfl, hleft, -⟩ := henclosed
    intro t ht hk
    cases ht
    rw [hleft] at hk
    cases hk
  obtain ⟨hstatements₀, herrors₀, hpanicked₀⟩ := parts_of_concatenation hbefore
    (Cursor.isProper_append hblock hbehind) hx hz helse (panicked_of_errors hclean)
  rw [← List.append_assoc, hstatements] at hstatements₀
  rw [← List.append_assoc, herrors', hclean, List.nil_append] at herrors₀
  rw [← List.append_assoc, hpanicked] at hpanicked₀
  refine ⟨⟨es, htargets, hcause, herrors, herrors₀, hstatements₀, hpanicked₀⟩, ?_⟩
  have hsingle : whole.diagnostics.length = 1 ↔ es = [] ∧ later.errors = [] := by
    have hlength : whole.diagnostics.length = es.length + (later.errors.length + 1) := by
      rw [diagnostics, List.length_map, herrors₀, List.length_append, List.length_cons]
    rw [hlength, ← List.length_eq_zero_iff, ← List.length_eq_zero_iff]
    omega
  have hkept := kept_behind_block hblock hbehind hz hclean' henclosed hi
  rw [hsingle, hstatements₀, List.append_cancel_left_eq, herrors, head?_errors htargets hcause,
    and_assoc, hkept]

end

/-- The tokens of `print nil;`. -/
def printNil : List Token :=
  [⟨.printWord, "print", .nil, 1⟩, ⟨.nilWord, "nil", .nil, 1⟩, ⟨.semicolon, ";", .nil, 1⟩]

/-- The tokens of `nil;`. -/
def nilAlone : List Token := [⟨.nilWord, "nil", .nil, 2⟩, ⟨.semicolon, ";", .nil, 2⟩]

/-- The tokens of `{ nil nil }`. -/
def strayNil : List Token :=
  [⟨.leftBrace, "\x7b", .nil, 1⟩, ⟨.nilWord, "nil", .nil, 1⟩, ⟨.nilWord, "nil", .nil, 1⟩,
   ⟨.rightBrace, "\x7d", .nil, 1⟩]

/-- The tokens of `{ ; print nil; }`. -/
def straySemicolon : List Token :=
  [⟨.leftBrace, "\x7b", .nil, 1⟩, ⟨.semicolon, ";", .nil, 1⟩] ++ printNil ++
    [⟨.rightBrace, "\x7d", .nil, 1⟩]

/-- A block that breaks off at a stray value costs nothing else in front of a "print", but a statement
that begins with a value goes with it. -/
theorem strayNil_between_statements :
    (ofTokens 40 (printNil ++ strayNil ++ printNil ++ [Token.endAt 1])).diagnostics.length = 1 ∧
      (ofTokens 40 (printNil ++ strayNil ++ printNil ++ [Token.endAt 1])).statements =
        (ofTokens 40 (printNil ++ [Token.endAt 1])).statements ++
          (ofTokens 40 (printNil ++ [Token.endAt 1])).statements ∧
      (ofTokens 40 (printNil ++ strayNil ++ nilAlone ++ [Token.endAt 2])).statements =
        (ofTokens 40 (printNil ++ [Token.endAt 1])).statements := by
  have hbreak : firstBreak 40 (strayNil ++ [Token.endAt 1]) =
      some (⟨⟨.nilWord, "nil", .nil, 1⟩, .expectSemicolon .expression⟩, 2) := by decide
  have henclosed : Enclosed strayNil := ⟨_, strayNil.tail.take 2, _, rfl, rfl, rfl, rfl⟩
  have hproper : ∀ t ∈ printNil, Cursor.isProper t = true := by decide
  have hproper' : ∀ t ∈ nilAlone, Cursor.isProper t = true := by decide
  have hprint := resumes_at_boundary hproper (by decide) hproper (x := .endAt 1) (z := .endAt 1)
    rfl rfl rfl (by decide) (by decide) henclosed hbreak (by decide)
  have halone := resumes_at_boundary hproper (by decide) hproper' (x := .endAt 1) (z := .endAt 2)
    rfl rfl rfl (by decide) (by decide) henclosed hbreak (by decide)
  obtain ⟨hreports, hstatements⟩ := hprint.2.mpr (by decide)
  obtain ⟨⟨es, -, -, -, -, hlost, -⟩, -⟩ := halone
  exact ⟨hreports, hstatements, hlost.trans (List.append_nil _)⟩

/-- A block that breaks off at a stray semicolon falls apart: the statement behind the semicolon is
read as one of the outermost level, the brace is reported as well, and the statement behind it is
lost. -/
theorem straySemicolon_falls_apart :
    (ofTokens 40 ([] ++ [Token.endAt 1])).errors = [] ∧
      (ofTokens 40 (nilAlone ++ [Token.endAt 2])).errors = [] ∧ Enclosed straySemicolon ∧
      firstBreak 40 (straySemicolon ++ [Token.endAt 1]) =
        some (⟨⟨.semicolon, ";", .nil, 1⟩, .expectExpression⟩, 1) ∧
      1 + 1 < straySemicolon.length ∧
      (ofTokens 40 ([] ++ straySemicolon ++ nilAlone ++ [Token.endAt 2])).diagnostics =
        [⟨1, " at ';'", "Expect expression."⟩, ⟨1, " at '\x7d'", "Expect expression."⟩] ∧
      (ofTokens 40 ([] ++ straySemicolon ++ nilAlone ++ [Token.endAt 2])).statements =
        (ofTokens 40 (printNil ++ [Token.endAt 1])).statements ∧
      ¬ ((ofTokens 40 ([] ++ straySemicolon ++ nilAlone ++ [Token.endAt 2])).diagnostics.length = 1 ∧
        (ofTokens 40 ([] ++ straySemicolon ++ nilAlone ++ [Token.endAt 2])).statements =
          (ofTokens 40 ([] ++ [Token.endAt 1])).statements ++
            (ofTokens 40 (nilAlone ++ [Token.endAt 2])).statements) := by
  refine ⟨by decide, by decide, ⟨_, straySemicolon.tail.take 4, _, rfl, rfl, rfl, rfl⟩, by decide,
    by decide, by decide, by rfl, ?_⟩
  rintro ⟨hreports, -⟩
  revert hreports
  decide

end Program

end LoxScript
