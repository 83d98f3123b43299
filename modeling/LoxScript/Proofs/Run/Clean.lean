import LoxScript.Run
import LoxScript.Proofs.Grammar.Prefixes
import LoxScript.Proofs.Lexeme.Joining
import LoxScript.Proofs.Machine.Relocation

/-!
# Clean sources

A source is clean if it is scanned and read without an error (`Clean`). Its run is the execution of
its statements, and every run without an error comes about in this way (`run_of_clean`,
`clean_of_run`). If a clean source is cut at the end of a line, then the first part is either
incomplete, so that it fails only because it ends too early, or clean itself, as is then the second
part (`clean_parts`).
-/

namespace LoxScript

open ParseState

/-- The source is scanned and read without an error, as the given statements. -/
structure Clean (nesting : Nat) (source : String) (ss : List Stmt) : Prop where
  lexical : (Scan.ofSource source).errors = []
  syntactic : (Program.ofTokens nesting (Scan.ofSource source).tokens).errors = []
  statements : (Program.ofTokens nesting (Scan.ofSource source).tokens).statements = ss

/-- The run of a clean source is the execution of its statements. -/
theorem run_of_clean {b : Bounds} {source : String} {ss : List Stmt} {m m' : Machine}
    (h : Clean b.nesting source ss)
    (hexec : Stmt.execAll b b.room ss { m with output := "" } = .ok () m') :
    run b source m = .ok ⟨true, [], m'⟩ := by
  obtain ⟨hlexical, hsyntactic, rfl⟩ := h
  have hpanicked := Program.panicked_of_errors hsyntactic
  unfold run
  simp only [hpanicked, Bool.false_eq_true, if_false, hexec, Report.ofResult, Scan.failed,
    Program.failed, Scan.diagnostics, Program.diagnostics, hlexical, hsyntactic]
  rfl

/-- A run without any error is the execution of a clean source. -/
theorem clean_of_run {b : Bounds} {source : String} {m : Machine} {report : Report}
    (h : run b source m = .ok report) (hok : report.ok = true) :
    ∃ ss, Clean b.nesting source ss ∧
      Stmt.execAll b b.room ss { m with output := "" } = .ok () report.machine := by
  unfold run at h
  by_cases hpanicked :
      (Program.ofTokens b.nesting (Scan.ofSource source).tokens).panicked = true
  · simp only [hpanicked, if_true] at h
    cases h
    cases hok
  · simp only [hpanicked, if_false, Bool.false_eq_true] at h
    generalize hr : Stmt.execAll b b.room
      (Program.ofTokens b.nesting (Scan.ofSource source).tokens).statements
      { m with output := "" } = r at h
    cases r with
    | ok u m' =>
      cases h
      simp only [Bool.not_eq_true', Bool.or_eq_false_iff, Scan.failed, Program.failed,
        Bool.not_eq_false', List.isEmpty_iff] at hok
      exact ⟨_, ⟨hok.1, hok.2, rfl⟩, hr⟩
    | error e m' =>
      cases e with
      | error _ | overflow =>
        cases h
        cases hok
      | _ => cases h

theorem Token.location_eq_end {t : Token} : t.location = " at end" ↔ t.kind = .endMark := by
  refine ⟨fun h => ?_, fun h => if_pos h⟩
  by_contra hk
  have hchars := congrArg String.toList h
  simp [location, hk] at hchars

/-- A source is incomplete if all errors are syntax errors that blame the end, and there is one. -/
theorem isIncomplete_iff_errors {b : Bounds} {source : String} :
    isIncomplete b source = true ↔ (Scan.ofSource source).errors = [] ∧
      (Program.ofTokens b.nesting (Scan.ofSource source).tokens).errors ≠ [] ∧
      ∀ e ∈ (Program.ofTokens b.nesting (Scan.ofSource source).tokens).errors,
        e.token.kind = .endMark := by
  simp [isIncomplete, Scan.failed, Program.failed, Program.diagnostics, SyntaxError.diagnostic,
    Token.location_eq_end, and_assoc]

theorem isIncomplete_of_endError {b : Bounds} {source : String} {e : SyntaxError}
    (hlexical : (Scan.ofSource source).errors = [])
    (herrors : (Program.ofTokens b.nesting (Scan.ofSource source).tokens).errors = [e])
    (he : e.token = Scan.endOf source) : isIncomplete b source = true := by
  refine isIncomplete_iff_errors.mpr ⟨hlexical, by simp [herrors], fun f hf => ?_⟩
  rw [herrors] at hf
  rw [List.mem_singleton.mp hf, he]
  rfl

theorem not_isIncomplete_of_clean {b : Bounds} {source : String} {ss : List Stmt}
    (h : Clean b.nesting source ss) : isIncomplete b source = false := by
  simp [isIncomplete, Program.failed, h.syntactic]

/-- A clean source of two parts joined by a line feed, the second of which does not begin with an
"else": either the first part is incomplete, or both are clean. -/
theorem clean_parts {b : Bounds} {s t : String} {ss : List Stmt} (hclosed : Scan.Closed s)
    (helse : ∀ u, (Scan.bare t).head? = some u → u.kind ≠ .elseWord)
    (h : Clean b.nesting (s ++ "\n" ++ t) ss) :
    isIncomplete b s = true ∨
      ∃ ss₁ ss₂ g, Clean b.nesting s ss₁ ∧ Clean b.nesting t ss₂ ∧
        ss = ss₁ ++ Stmt.movedAll g ss₂ := by
  obtain ⟨hlexical, hsyntactic, rfl⟩ := h
  obtain ⟨hlexical₁, hlexical₂⟩ := (Scan.errors_joined hclosed t).mp hlexical
  have hwhole := Scan.tokens_joined hclosed t
  generalize (· + (Scan.height (pieces s.toList) + 1)) = g at hwhole
  have hmoved := Cursor.isProper_moved (g := g) (Scan.isProper_bare t)
  have hlist : (Scan.bare t ++ [Scan.endOf t]).map (Token.moved g) =
      (Scan.bare t).map (Token.moved g) ++ [(Scan.endOf t).moved g] := by
    rw [List.map_append, List.map_singleton]
  rw [hwhole, hlist, ← List.append_assoc] at hsyntactic ⊢
  have hfirst := Scan.tokens_ofSource s
  -- the first source by itself has no errors, or ends too early
  rcases Program.errors_of_beginning (Scan.isProper_bare s) hmoved (y := Scan.endOf s) rfl rfl
    hsyntactic with herrors | ⟨e, herrors, he⟩
  · right
    have hfollows : ∀ u, ((Scan.bare t).map (Token.moved g)).head? = some u →
        u.kind ≠ .elseWord := by
      intro u hu
      rw [List.head?_map] at hu
      obtain ⟨v, hv, rfl⟩ := Option.map_eq_some_iff.mp hu
      exact helse v hv
    obtain ⟨herrors', hstatements⟩ := Program.statements_of_parts (Scan.isProper_bare s) hmoved rfl
      rfl hfollows hsyntactic herrors
    obtain ⟨hmovedStatements, hmovedErrors, -⟩ :=
      Program.ofTokens_moved (g := g) b.nesting (Scan.bare t) (Scan.endOf t)
    rw [← hlist] at herrors' hstatements
    rw [hmovedErrors] at herrors'
    rw [hmovedStatements, ← Scan.tokens_ofSource, ← Scan.tokens_ofSource] at hstatements
    refine ⟨_, _, g, ⟨hlexical₁, by rwa [hfirst], rfl⟩, ⟨hlexical₂, ?_, rfl⟩, hstatements⟩
    rw [Scan.tokens_ofSource]
    exact List.map_eq_nil_iff.mp herrors'
  · -- the only error blames the end
    left
    rw [← hfirst] at herrors
    exact isIncomplete_of_endError hlexical₁ herrors he

/-- Statements in two parts, the second of them on other lines: the second part does the same on a
machine that has not printed anything yet. -/
theorem exec_parts {b : Bounds} {room : Nat} {ss ts : List Stmt} {g : Int → Int} {m m' : Machine}
    (h : Stmt.execAll b room (ss ++ Stmt.movedAll g ts) m = .ok () m') :
    ∃ m₁ m₂, Stmt.execAll b room ss m = .ok () m₁ ∧
      Stmt.execAll b room ts { m₁ with output := "" } = .ok () m₂ ∧
      m₂.chain = m'.chain ∧ m'.output = m₁.output ++ m₂.output := by
  obtain ⟨m₁, h₁, h₂⟩ := Stmt.execAll_append_eq_ok.mp h
  have hbehind : Machine.Behind m₁.output { m₁ with output := "" } m₁ := ⟨rfl, by simp⟩
  have hagrees := Stmt.execAll_moved (g := g) b room ts hbehind
  rw [h₂] at hagrees
  generalize hr : Stmt.execAll b room ts { m₁ with output := "" } = r at hagrees
  cases hagrees with
  | ok hm => exact ⟨m₁, _, h₁, hr, hm.chain.symm, hm.output⟩

end LoxScript
