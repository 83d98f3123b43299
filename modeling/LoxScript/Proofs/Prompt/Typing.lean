import LoxScript.Prompt
import LoxScript.Proofs.Run.Clean

/-!
# Typing a program line by line

At the prompt a program is cut into entries: each of them ends with the first line behind which the
entry is complete. If the program as a whole is read without an error, then so is each entry, and the
program is executed entry by entry as it would be as a whole. Two things have to be seen for this.
An entry that is not complete fails only because it ends too early, and waits. And an entry that is
complete is a program of its own, and what follows it is another one, on later lines.

The lines may be cut anywhere, except inside a text and in front of an "else".
-/

namespace LoxScript

/-! ## Lines -/

/-- A line that can be typed as a part of a program: it is not blank, it is no word that leaves the
dialogue, it leaves no quotation mark open, and it does not begin with an "else". -/
structure PlainLine (line : String) : Prop where
  visible : Text.trim line ≠ ""
  stays : Text.trim line ∉ Dialogue.leavingWords
  closed : ∀ e ∈ (Scan.ofSource line).errors, e.cause ≠ .openText
  begins : (Scan.ofSource line).tokens.head?.map Token.kind ≠ some .elseWord

instance (line : String) : Decidable (PlainLine line) :=
  decidable_of_iff
    (Text.trim line ≠ "" ∧ Text.trim line ∉ Dialogue.leavingWords ∧
      (∀ e ∈ (Scan.ofSource line).errors, e.cause ≠ .openText) ∧
      (Scan.ofSource line).tokens.head?.map Token.kind ≠ some .elseWord)
    ⟨fun ⟨h₁, h₂, h₃, h₄⟩ => ⟨h₁, h₂, h₃, h₄⟩, fun ⟨h₁, h₂, h₃, h₄⟩ => ⟨h₁, h₂, h₃, h₄⟩⟩

namespace PlainLine

variable {lines : List String}

theorem pieces_joinLines_nil : pieces (Text.joinLines []).toList = [] := by
  rw [show (Text.joinLines []).toList = [] from rfl, pieces]

/-- A line is joined to the others by a line feed. -/
theorem joinLines_cons (line : String) {lines : List String} (h : lines ≠ []) :
    Text.joinLines (line :: lines) = line ++ "\n" ++ Text.joinLines lines :=
  String.intercalate_cons_of_ne_nil h

/-- Plain lines have no open text, each by itself and all together. -/
theorem closed_joinLines (h : ∀ l ∈ lines, PlainLine l) : Scan.Closed (Text.joinLines lines) := by
  induction lines with
  | nil =>
    intro p hp
    rw [pieces_joinLines_nil] at hp
    cases hp
  | cons line lines ih =>
    have hline : Scan.Closed line := Scan.closed_of_errors (h line (by simp)).closed
    by_cases hnil : lines = []
    · subst hnil
      rwa [show Text.joinLines [line] = line from String.intercalate_singleton]
    · intro p hp
      rw [joinLines_cons line hnil, Scan.pieces_toList_joined hline] at hp
      rcases List.mem_append.mp hp with hp | hp
      · exact hline p hp
      · rcases List.mem_cons.mp hp with rfl | hp
        · rfl
        · exact ih (fun l hl => h l (by simp [hl])) p hp

/-- The first token of lines that are joined is the first token of one of them, if there is one. -/
theorem begins_joinLines (h : ∀ l ∈ lines, PlainLine l) :
    ∀ t, (Scan.bare (Text.joinLines lines)).head? = some t → t.kind ≠ .elseWord := by
  induction lines with
  | nil =>
    intro t ht
    rw [Scan.bare, pieces_joinLines_nil] at ht
    cases ht
  | cons line lines ih =>
    have hplain := h line (by simp)
    have hfirst : ∀ t, (Scan.bare line).head? = some t → t.kind ≠ .elseWord := by
      intro t ht helse
      refine hplain.begins ?_
      rw [Scan.tokens_ofSource, List.head?_append, ht, Option.some_or, Option.map_some, helse]
    by_cases hnil : lines = []
    · subst hnil
      rwa [show Text.joinLines [line] = line from String.intercalate_singleton]
    · intro t ht
      rw [joinLines_cons line hnil, Scan.bare_joined (Scan.closed_of_errors hplain.closed),
        List.head?_append] at ht
      cases hbare : (Scan.bare line).head? with
      | some u =>
        rw [hbare] at ht
        cases ht
        exact hfirst _ hbare
      | none =>
        rw [hbare, Option.none_or, List.head?_map] at ht
        obtain ⟨u, hu, rfl⟩ := Option.map_eq_some_iff.mp ht
        exact ih (fun l hl => h l (by simp [hl])) u hu

end PlainLine

/-! ## The dialogue -/

/-- All that is written to the standard output. -/
def Transcript.stdout (t : Transcript) : String :=
  String.join (t.steps.map Step.stdout) ++ t.final.stdout

/-- Nothing is written to the standard error output. -/
def Transcript.Quiet (t : Transcript) : Prop :=
  (∀ step ∈ t.steps, step.stderr = "") ∧ t.final.stderr = ""

/-- The course of a dialogue ends well: it writes the given output and no errors, no entry waits at
its end, and these are the scopes. -/
structure Transcript.Ends (t : Transcript) (stdout : String) (chain : Chain) : Prop where
  stdout : t.stdout = stdout ++ Text.line ""
  quiet : t.Quiet
  pending : t.final.dialogue.pending = []
  chain : t.final.dialogue.machine.chain = chain

namespace Dialogue

/-- The answer to a line that does not leave and does not ask to run what waits. -/
theorem onLine_of_kept {b : Bounds} {d : Dialogue} {text : String}
    (hstays : Text.trim text ∉ leavingWords)
    (hvisible : d.pending ≠ [] → Text.trim text ≠ "") :
    d.onLine b text =
      if isIncomplete b (Text.joinLines (d.pending ++ [text])) then
        .ok ⟨{ d with pending := d.pending ++ [text] }, "", "", false⟩
      else d.enter b (d.pending ++ [text]) := by
  have hword : leavingWords.contains (Text.trim text) = false := by simpa using hstays
  have hkept : (!d.pending.isEmpty && (Text.trim text).isEmpty) = false := by
    rw [Bool.and_eq_false_iff]
    by_cases hne : d.pending = []
    · simp [hne]
    · simpa [String.isEmpty_iff] using Or.inr (hvisible hne)
  unfold onLine
  simp only [hword, hkept, Bool.false_eq_true, if_false]

/-- The answer to a plain line: the entry waits if it is incomplete, and otherwise it is run. -/
theorem onLine_plain {b : Bounds} {d : Dialogue} {line : String} (h : PlainLine line) :
    d.onLine b line =
      if isIncomplete b (Text.joinLines (d.pending ++ [line])) then
        .ok ⟨{ d with pending := d.pending ++ [line] }, "", "", false⟩
      else d.enter b (d.pending ++ [line]) :=
  onLine_of_kept h.stays fun _ => h.visible

/-- Continuing a dialogue with an answer that does not leave it. -/
theorem converse_of_respond {b : Bounds} {d d' : Dialogue} {out out' err err' : String} {e : Event}
    {es : List Event} {t : Transcript} (h : d.respond b e = .ok ⟨d', out', err', false⟩)
    (ht : d'.converse b out' err' es = .ok t) :
    d.converse b out err (e :: es) = .ok ⟨⟨d.prompt, out, err⟩ :: t.steps, t.final⟩ := by
  rw [converse, h]
  show (do
      let later ← d'.converse b out' err' es
      return (⟨⟨d.prompt, out, err⟩ :: later.steps, later.final⟩ : Transcript)) = _
  rw [ht]
  rfl

/-- An earlier step adds what it prints. -/
theorem ends_cons {t : Transcript} {prompt out stdout : String} {chain : Chain}
    (h : t.Ends stdout chain) :
    Transcript.Ends ⟨⟨prompt, out, ""⟩ :: t.steps, t.final⟩ (out ++ stdout) chain := by
  obtain ⟨hstdout, ⟨hsteps, hfinal⟩, hpending, hchain⟩ := h
  refine ⟨?_, ⟨?_, hfinal⟩, hpending, hchain⟩
  · unfold Transcript.stdout at hstdout ⊢
    simp only [List.map_cons, String.join_cons]
    rw [String.append_assoc, hstdout, String.append_assoc]
  · intro step hstep
    rcases List.mem_cons.mp hstep with rfl | hstep
    · rfl
    · exact hsteps step hstep

/-- The lines of a clean source are run as one entry. -/
theorem enter_of_clean {b : Bounds} {d : Dialogue} {lines : List String} {ss : List Stmt}
    {m' : Machine} (h : Clean b.nesting (Text.joinLines lines) ss)
    (hexec : Stmt.execAll b b.room ss { d.machine with output := "" } = .ok () m') :
    d.enter b lines = .ok ⟨⟨m', []⟩, m'.output, "", false⟩ := by
  unfold enter
  rw [run_of_clean h hexec]
  rfl

theorem clean_joinLines_nil {nesting : Nat} {ss : List Stmt}
    (h : Clean nesting (Text.joinLines []) ss) : ss = [] := by
  rw [← h.statements, Scan.tokens_ofSource, Scan.bare, PlainLine.pieces_joinLines_nil]
  rfl

theorem clean_nil (nesting : Nat) : Clean nesting (Text.joinLines []) [] := by
  have htokens : (Scan.ofSource (Text.joinLines [])).tokens = [Token.endAt 1] := by
    rw [Scan.ofSource, PlainLine.pieces_joinLines_nil]
    rfl
  refine ⟨?_, ?_, ?_⟩
  · rw [Scan.ofSource, PlainLine.pieces_joinLines_nil]
    rfl
  · rw [htokens]
    rfl
  · rw [htokens]
    rfl

/-- The dialogue about the remaining lines of a program. The lines that wait, followed by those still
to be typed, are a clean source, and its execution tells how the dialogue ends. -/
theorem converse_plain (b : Bounds) (lines pending : List String) {m m' : Machine}
    {ss : List Stmt} (hplain : ∀ l ∈ pending ++ lines, PlainLine l)
    (hwait : lines = [] → pending = [])
    (hclean : Clean b.nesting (Text.joinLines (pending ++ lines)) ss)
    (hexec : Stmt.execAll b b.room ss { m with output := "" } = .ok () m') (out : String) :
    ∃ t, (⟨m, pending⟩ : Dialogue).converse b out "" (lines.map .line) = .ok t ∧
      t.Ends (out ++ m'.output) m'.chain := by
  -- by induction on the lines to come; those that wait already are in front of them
  induction lines generalizing pending m m' ss out with
  | nil =>
    obtain rfl := hwait rfl
    obtain rfl := clean_joinLines_nil hclean
    cases hexec
    refine ⟨_, rfl, ?_, ⟨?_, rfl⟩, rfl, rfl⟩
    · simp [Transcript.stdout, onEnd]
    · intro step hstep
      rw [List.mem_singleton.mp hstep]
  | cons line lines ih =>
    have hanswer : (⟨m, pending⟩ : Dialogue).respond b (.line line) = _ :=
      onLine_plain (hplain line (by simp))
    have hsplit : pending ++ line :: lines = (pending ++ [line]) ++ lines := by simp
    rw [hsplit] at hplain hclean
    by_cases hlast : lines = []
    · -- the last line completes the program
      subst hlast
      rw [List.append_nil] at hclean
      rw [not_isIncomplete_of_clean hclean, if_neg Bool.false_ne_true,
        enter_of_clean hclean hexec] at hanswer
      have hdone : Stmt.execAll b b.room [] { m' with output := "" } =
          .ok () { m' with output := "" } := rfl
      obtain ⟨t, ht, hends⟩ := ih [] (by simp) (fun _ => rfl) (clean_nil b.nesting) hdone m'.output
      refine ⟨_, converse_of_respond hanswer ht, ?_⟩
      simpa using ends_cons hends
    · have hjoin : Text.joinLines ((pending ++ [line]) ++ lines) =
          Text.joinLines (pending ++ [line]) ++ "\n" ++ Text.joinLines lines :=
        String.intercalate_append_of_ne_nil (by simp) hlast
      have hplain₁ : ∀ l ∈ pending ++ [line], PlainLine l :=
        fun l hl => hplain l (List.mem_append_left _ hl)
      have hplain₂ : ∀ l ∈ lines, PlainLine l := fun l hl => hplain l (List.mem_append_right _ hl)
      rw [hjoin] at hclean
      rcases clean_parts (PlainLine.closed_joinLines hplain₁) (PlainLine.begins_joinLines hplain₂)
        hclean with hincomplete | ⟨ss₁, ss₂, g, hclean₁, hclean₂, rfl⟩
      · -- the entry waits
        rw [if_pos hincomplete] at hanswer
        rw [← hjoin] at hclean
        obtain ⟨t, ht, hends⟩ :=
          ih (pending ++ [line]) hplain (fun h => absurd h hlast) hclean hexec ""
        refine ⟨_, converse_of_respond hanswer ht, ?_⟩
        simpa using ends_cons hends
      · -- the entry is run, and the rest is a program of its own
        obtain ⟨m₁, m₂, hexec₁, hexec₂, hchain, houtput⟩ := exec_parts hexec
        rw [not_isIncomplete_of_clean hclean₁, if_neg Bool.false_ne_true,
          enter_of_clean hclean₁ hexec₁] at hanswer
        obtain ⟨t, ht, hends⟩ := ih [] hplain₂ (fun _ => rfl) hclean₂ hexec₂ m₁.output
        refine ⟨_, converse_of_respond hanswer ht, ?_⟩
        rw [houtput, ← hchain]
        exact ends_cons hends

/-- Typing the lines of a program has the same effect as running the program: if its lines are
plain, and the run of the program on a fresh machine finds no error, then the dialogue prints what
the run prints between its banner and the final line feed, it writes nothing to the standard error
output, no entry waits at its end, and its scopes are those after the run. -/
theorem typing_agrees_with_run (b : Bounds) (lines : List String) (report : Report)
    (hplain : ∀ l ∈ lines, PlainLine l)
    (hrun : run b (Text.joinLines lines) Machine.fresh = .ok report) (hok : report.ok = true) :
    ∃ t, transcript b (lines.map .line) = .ok t ∧
      t.stdout = banner ++ report.output ++ Text.line "" ∧ t.Quiet ∧
      t.final.dialogue.pending = [] ∧
      t.final.dialogue.machine.chain = report.machine.chain := by
  obtain ⟨ss, hclean, hexec⟩ := clean_of_run hrun hok
  obtain ⟨t, ht, hends⟩ := converse_plain b lines [] hplain (fun _ => rfl) hclean hexec
    banner
  exact ⟨t, ht, hends.stdout, hends.quiet, hends.pending, hends.chain⟩

/-- The lines of a program, cut in the middle of a declaration and of a block. -/
def scatteredLines : List String := ["var a =", "nil; \x7b", "a = true; print", "a; \x7d"]

theorem typing_scattered_lines :
    ∃ t, transcript {} (scatteredLines.map .line) = .ok t ∧
      t.stdout = banner ++ "true\n" ++ Text.line "" := by
  have hresult : (run {} (Text.joinLines scatteredLines) Machine.fresh).toOption.map
      (fun report => (report.ok, report.output)) = some (true, "true\n") := by
    decide +kernel
  cases hrun : run {} (Text.joinLines scatteredLines) Machine.fresh with
  | ok report =>
    rw [hrun] at hresult
    obtain ⟨hok, houtput⟩ := Prod.mk.inj (Option.some.inj hresult)
    obtain ⟨t, ht, hstdout, -⟩ := typing_agrees_with_run {} _ report (by decide +kernel) hrun hok
    rw [houtput] at hstdout
    exact ⟨t, ht, hstdout⟩
  | error halt =>
    rw [hrun] at hresult
    cases hresult

end Dialogue

end LoxScript
