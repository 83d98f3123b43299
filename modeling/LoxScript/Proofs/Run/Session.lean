import LoxScript.Proofs.Grammar.Concatenation
import LoxScript.Proofs.Run.Clean

/-!
# A session and a script

Running two sources one after the other on one machine has the same effect as running the one script
that consists of both, the second one below the first (`session_agrees_with_script`). The two sources
may have errors, as long as no declaration has to be dropped for them: a source with a stray
character or an assignment to no variable is still executed.

All three phases are put together here. The tokens of the script are those of the two sources, the
second ones on later lines; its statements are those of both, since no declaration was dropped; and
they are executed one part after the other. Only where the execution of the first source breaks off
is the second one left out, while a session would go on with it.
-/

namespace LoxScript

/-- What is found wrong with a source before it is executed. -/
def findings (b : Bounds) (source : String) : List Diagnostic :=
  (Scan.ofSource source).diagnostics ++
    (Program.ofTokens b.nesting (Scan.ofSource source).tokens).diagnostics

/-- The reports of a run on what broke off the execution: those behind the findings. -/
def Report.breaks (b : Bounds) (source : String) (r : Report) : List Diagnostic :=
  r.diagnostics.drop (findings b source).length

/-- No declaration of the source is dropped. -/
def Kept (nesting : Nat) (source : String) : Prop :=
  (Program.ofTokens nesting (Scan.ofSource source).tokens).panicked = false

/-- The statements of a source. -/
def statementsOf (nesting : Nat) (source : String) : List Stmt :=
  (Program.ofTokens nesting (Scan.ofSource source).tokens).statements

/-- Whether anything is found wrong with a source before it is executed. -/
def faulty (nesting : Nat) (source : String) : Bool :=
  (Scan.ofSource source).failed || (Program.ofTokens nesting (Scan.ofSource source).tokens).failed

/-- The same report, so many lines below. -/
def Diagnostic.below (k : Int) (d : Diagnostic) : Diagnostic := { d with line := d.line + k }

/-! ## Outcomes of an execution -/

/-- The report of a break that an error of the program explains. -/
def Halt.report? (line : Int) : Halt → Option Diagnostic
  | .error e => some e.diagnostic
  | .overflow => some (overflowDiagnostic line)
  | _ => none

theorem Report.ofResult_error (clean : Bool) (found : List Diagnostic) (h : Halt) (m : Machine) :
    ofResult clean found (.error h m) =
      match h.report? m.line with
      | some d => .ok ⟨false, found ++ [d], m⟩
      | none => .error h := by
  cases h <;> rfl

/-- An error is reported in the same way, on another line. -/
theorem RuntimeError.diagnostic_moved (k : Int) (e : RuntimeError) :
    (⟨e.token.moved (· + k), e.cause⟩ : RuntimeError).diagnostic = e.diagnostic.below k := by
  obtain ⟨token, cause⟩ := e
  cases cause <;> rfl

theorem Halt.report?_moved {line : Int} {halt : Halt} {d : Diagnostic}
    (h : halt.report? line = some d) (hd : d ≠ overflowDiagnostic line) (k line' : Int) :
    (halt.moved (· + k)).report? line' = some (d.below k) := by
  cases halt with
  | error e =>
    cases h
    exact congrArg some (e.diagnostic_moved k)
  | overflow =>
    cases h
    exact absurd rfl hd
  | _ => cases h

section

variable {b : Bounds} {source : String} {m m' : Machine} {r : Report}

theorem run_of_kept (h : Kept b.nesting source) (m : Machine) :
    run b source m = Report.ofResult (!faulty b.nesting source) (findings b source)
      (Stmt.execAll b b.room (statementsOf b.nesting source) { m with output := "" }) := by
  have hpanicked : ¬ (Program.ofTokens b.nesting (Scan.ofSource source).tokens).panicked = true := by
    rw [h]
    exact Bool.false_ne_true
  exact if_neg hpanicked

theorem breaks_findings (ok : Bool) (ds : List Diagnostic) (m : Machine) :
    Report.breaks b source ⟨ok, findings b source ++ ds, m⟩ = ds :=
  List.drop_left

/-- A source of which no declaration is dropped is executed to its end, or something breaks off the
execution and is reported. -/
theorem run_eq_ok (hkept : Kept b.nesting source) (h : run b source m = .ok r) :
    (∃ m', Stmt.execAll b b.room (statementsOf b.nesting source) { m with output := "" } = .ok () m' ∧
      r = ⟨!faulty b.nesting source, findings b source, m'⟩) ∨
    ∃ halt m' d,
      Stmt.execAll b b.room (statementsOf b.nesting source) { m with output := "" } =
        .error halt m' ∧
      halt.report? m'.line = some d ∧ r = ⟨false, findings b source ++ [d], m'⟩ := by
  rw [run_of_kept hkept] at h
  generalize Stmt.execAll b b.room (statementsOf b.nesting source) { m with output := "" } = result
    at h
  cases result with
  | ok _ m' =>
    cases h
    exact .inl ⟨m', rfl, rfl⟩
  | error halt m' =>
    rw [Report.ofResult_error] at h
    cases hd : halt.report? m'.line with
    | none =>
      rw [hd] at h
      cases h
    | some d =>
      rw [hd] at h
      cases h
      exact .inr ⟨halt, m', d, rfl, hd, rfl⟩

end

/-! ## The script of two sources -/

section

variable {nesting : Nat} {s t : String}

/-- The script has the statements of both sources, and something is found wrong with it if something
is found wrong with one of them. -/
theorem parts_of_script (hclosed : Scan.Closed s) (hs : Kept nesting s) (ht : Kept nesting t) :
    Kept nesting (s ++ "\n" ++ t) ∧
      statementsOf nesting (s ++ "\n" ++ t) =
        statementsOf nesting s ++
          Stmt.movedAll (· + ((Text.newlines s.toList : Int) + 1)) (statementsOf nesting t) ∧
      faulty nesting (s ++ "\n" ++ t) = (faulty nesting s || faulty nesting t) := by
  have htokens := Scan.tokens_joined hclosed t
  rw [Scan.height_pieces] at htokens
  generalize (· + ((Text.newlines s.toList : Int) + 1)) = g at htokens ⊢
  have hfirst := Scan.tokens_ofSource s
  have hsecond := Scan.tokens_ofSource t
  unfold Kept at hs ht
  rw [hsecond] at ht
  rw [hfirst] at hs
  have hproper := Cursor.isProper_moved (g := g) (Scan.isProper_bare t)
  -- a second source that is read without a break does not begin with an "else"
  have helse : Parse.NoElse ((Scan.bare t).map (Token.moved g)) := by
    have hkept := Parse.noElse_of_kept (s := .ofTokens (Scan.bare t ++ [Scan.endOf t])) ht
    rw [ParseState.ofTokens_closed (Scan.isProper_bare t) rfl] at hkept
    intro u hu
    rw [List.head?_map] at hu
    obtain ⟨v, hv, rfl⟩ := Option.map_eq_some_iff.mp hu
    exact hkept v hv
  have hlist : (Scan.bare t).map (Token.moved g) ++ [(Scan.endOf t).moved g] =
      (Scan.bare t ++ [Scan.endOf t]).map (Token.moved g) := by
    rw [List.map_append, List.map_singleton]
  obtain ⟨hstatements, herrors, hpanicked⟩ := Program.parts_of_concatenation
    (Scan.isProper_bare s) hproper (y := Scan.endOf s) (z := (Scan.endOf t).moved g) rfl rfl helse hs
  obtain ⟨hstatements', herrors', hpanicked'⟩ :=
    Program.ofTokens_moved (g := g) nesting (Scan.bare t) (Scan.endOf t)
  rw [List.append_assoc, hlist] at hstatements herrors hpanicked
  rw [hstatements'] at hstatements
  rw [herrors'] at herrors
  rw [hpanicked', ht] at hpanicked
  refine ⟨?_, ?_, ?_⟩
  · unfold Kept
    rw [htokens]
    exact hpanicked
  · unfold statementsOf
    rw [htokens, hstatements, hfirst, hsecond]
  · have hsyntactic : (Program.ofTokens nesting (Scan.ofSource (s ++ "\n" ++ t)).tokens).failed =
        ((Program.ofTokens nesting (Scan.ofSource s).tokens).failed ||
          (Program.ofTokens nesting (Scan.ofSource t).tokens).failed) := by
      rw [htokens, hfirst, hsecond, Program.failed_of_errors herrors, List.isEmpty_map]
      rfl
    unfold faulty
    rw [Scan.failed_joined hclosed, hsyntactic]
    ac_rfl

end

/-! ## Two runs and one -/

section

variable {b : Bounds} {s t : String} {m : Machine} {r₁ : Report}

/-- What the run of a script is, given how its first source is executed. -/
theorem run_script (hclosed : Scan.Closed s) (hs : Kept b.nesting s) (ht : Kept b.nesting t) :
    run b (s ++ "\n" ++ t) m =
      Report.ofResult (!faulty b.nesting s && !faulty b.nesting t) (findings b (s ++ "\n" ++ t))
        ((do
          Stmt.execAll b b.room (statementsOf b.nesting s)
          Stmt.execAll b b.room (Stmt.movedAll (· + ((Text.newlines s.toList : Int) + 1))
            (statementsOf b.nesting t))) { m with output := "" }) := by
  obtain ⟨hkept, hstatements, hfaulty⟩ := parts_of_script hclosed hs ht
  rw [run_of_kept hkept, hstatements, hfaulty, Stmt.execAll_append, Bool.not_or]

/-- If the execution of the first source breaks off, then so does that of the script, in the same
way. -/
theorem script_of_break (hclosed : Scan.Closed s) (hs : Kept b.nesting s) (ht : Kept b.nesting t)
    (h₁ : run b s m = .ok r₁) (hbreaks : r₁.breaks b s ≠ []) :
    ∃ r, run b (s ++ "\n" ++ t) m = .ok r ∧ r.ok = false ∧ r.machine = r₁.machine ∧
      r.breaks b (s ++ "\n" ++ t) = r₁.breaks b s := by
  rcases run_eq_ok hs h₁ with ⟨m₁, -, rfl⟩ | ⟨halt, m₁, d, hexec, hd, rfl⟩
  · refine absurd ?_ hbreaks
    simp [Report.breaks]
  · refine ⟨⟨false, findings b (s ++ "\n" ++ t) ++ [d], m₁⟩, ?_, rfl, rfl, ?_⟩
    · rw [run_script hclosed hs ht, bind_of_error hexec, Report.ofResult_error, hd]
    · rw [breaks_findings, breaks_findings]

/-- If the execution of the first source ends, then the script does what the two sources do one after
the other; an error of the second source is reported on its line of the script. -/
theorem script_of_end (hclosed : Scan.Closed s) (hs : Kept b.nesting s) (ht : Kept b.nesting t)
    (h₁ : run b s m = .ok r₁) (hbreaks : r₁.breaks b s = []) {r₂ : Report}
    (h₂ : run b t r₁.machine = .ok r₂) (hoverflow : ∀ line, overflowDiagnostic line ∉ r₂.diagnostics) :
    ∃ r, run b (s ++ "\n" ++ t) m = .ok r ∧ r.ok = (r₁.ok && r₂.ok) ∧
      r.output = r₁.output ++ r₂.output ∧ r.machine.chain = r₂.machine.chain ∧
      r.breaks b (s ++ "\n" ++ t) =
        (r₂.breaks b t).map (Diagnostic.below ((Text.newlines s.toList : Int) + 1)) := by
  have hscript := run_script (m := m) hclosed hs ht
  generalize hfound : findings b (s ++ "\n" ++ t) = found at hscript
  have hdrop : ∀ ok ds m', Report.breaks b (s ++ "\n" ++ t) ⟨ok, found ++ ds, m'⟩ = ds := by
    intro ok ds m'
    rw [← hfound]
    exact breaks_findings ok ds m'
  rcases run_eq_ok hs h₁ with ⟨m₁, hexec₁, rfl⟩ | ⟨halt, m₁, d, -, -, rfl⟩
  · rw [bind_of_ok hexec₁] at hscript
    -- the second source is executed on what the first one left, and prints behind its output
    have hbehind : Machine.Behind m₁.output { m₁ with output := "" } m₁ := ⟨rfl, by simp⟩
    have hagrees := Stmt.execAll_moved (g := (· + ((Text.newlines s.toList : Int) + 1))) b b.room
      (statementsOf b.nesting t) hbehind
    rcases run_eq_ok ht h₂ with ⟨m₂, hexec₂, rfl⟩ | ⟨halt, m₂, d, hexec₂, hd, rfl⟩
    · rw [hexec₂] at hagrees
      generalize Stmt.execAll b b.room (Stmt.movedAll _ (statementsOf b.nesting t)) m₁ = result
        at hagrees hscript
      cases hagrees with
      | @ok _ _ m' hm =>
        refine ⟨_, hscript, rfl, hm.output, hm.chain, ?_⟩
        have hnone := hdrop (!faulty b.nesting s && !faulty b.nesting t) [] m'
        rw [List.append_nil] at hnone
        rw [hnone]
        simp [Report.breaks]
    · rw [hexec₂] at hagrees
      generalize Stmt.execAll b b.room (Stmt.movedAll _ (statementsOf b.nesting t)) m₁ = result
        at hagrees hscript
      cases hagrees with
      | @error _ _ m' hm =>
        have hexplained : d ≠ overflowDiagnostic m₂.line := by
          rintro rfl
          exact hoverflow _ (List.mem_append_right _ (List.mem_singleton.mpr rfl))
        rw [Report.ofResult_error, Halt.report?_moved hd hexplained] at hscript
        refine ⟨_, hscript, (Bool.and_false _).symm, hm.output, hm.chain, ?_⟩
        rw [hdrop, breaks_findings]
        rfl
  · rw [breaks_findings] at hbreaks
    cases hbreaks

/-- Running a source and then another one on the same machine amounts to running the script of both:
if nothing breaks off the execution of the first source, the script prints what both print, leaves
the same scopes, succeeds if both succeed, and reports what breaks off the second one, on its line of
the script; if something does break it off, the script leaves and reports the same. This holds unless
a declaration of one source is dropped, the first source ends within a text, or the stack is
exhausted. -/
theorem session_agrees_with_script (b : Bounds) (s t : String) (m : Machine) (r₁ : Report)
    (hopen : ∀ e ∈ (Scan.ofSource s).errors, e.cause ≠ .openText)
    (hs : (Program.ofTokens b.nesting (Scan.ofSource s).tokens).panicked = false)
    (ht : (Program.ofTokens b.nesting (Scan.ofSource t).tokens).panicked = false)
    (h₁ : run b s m = .ok r₁) :
    (r₁.breaks b s = [] → ∀ r₂, run b t r₁.machine = .ok r₂ →
      (∀ line, overflowDiagnostic line ∉ r₂.diagnostics) →
        ∃ r, run b (s ++ "\n" ++ t) m = .ok r ∧ r.ok = (r₁.ok && r₂.ok) ∧
          r.output = r₁.output ++ r₂.output ∧ r.machine.chain = r₂.machine.chain ∧
          r.breaks b (s ++ "\n" ++ t) =
            (r₂.breaks b t).map (Diagnostic.below ((Text.newlines s.toList : Int) + 1))) ∧
    (r₁.breaks b s ≠ [] →
      ∃ r, run b (s ++ "\n" ++ t) m = .ok r ∧ r.ok = false ∧ r.machine = r₁.machine ∧
        r.breaks b (s ++ "\n" ++ t) = r₁.breaks b s) := by
  have hclosed := Scan.closed_of_errors hopen
  exact ⟨fun hbreaks r₂ h₂ hoverflow => script_of_end hclosed hs ht h₁ hbreaks h₂ hoverflow,
    script_of_break hclosed hs ht h₁⟩

end

/-- Two lines with a stray character and an assignment to no variable. -/
def faultySource : String := "var a = true; @\nnil = a; print a;"

/-- Two lines of which the second one cannot be executed. -/
def brokenSource : String := "print a;\nb;"

theorem session_of_faultySource_brokenSource :
    ∃ r, run {} (faultySource ++ "\n" ++ brokenSource) Machine.fresh = .ok r ∧ r.ok = false ∧
      r.output = "true\ntrue\n" ∧
      r.breaks {} (faultySource ++ "\n" ++ brokenSource) =
        [⟨4, "", "Undefined variable 'b'."⟩] := by
  have hruns : (do
      let r₁ ← run {} faultySource Machine.fresh
      let r₂ ← run {} brokenSource r₁.machine
      return ((r₁.ok, r₁.output, r₁.breaks {} faultySource),
        (r₂.output, r₂.diagnostics, r₂.breaks {} brokenSource))).toOption =
      some ((false, "true\n", []),
        ("true\n", [⟨2, "", "Undefined variable 'b'."⟩], [⟨2, "", "Undefined variable 'b'."⟩])) := by
    decide +kernel
  cases h₁ : run {} faultySource Machine.fresh with
  | error halt =>
    rw [h₁] at hruns
    cases hruns
  | ok r₁ =>
    have hagrees := session_agrees_with_script {} faultySource brokenSource Machine.fresh r₁
      (by decide +kernel) (by decide +kernel) (by decide +kernel) h₁
    rw [h₁] at hruns
    cases h₂ : run {} brokenSource r₁.machine with
    | error halt =>
      change (run {} brokenSource r₁.machine >>= _).toOption = _ at hruns
      rw [h₂] at hruns
      cases hruns
    | ok r₂ =>
      change (run {} brokenSource r₁.machine >>= _).toOption = _ at hruns
      rw [h₂] at hruns
      simp only [bind, Except.bind, pure, Except.pure, Except.toOption, Option.some.injEq,
        Prod.mk.injEq] at hruns
      obtain ⟨⟨hfaulty, houtput₁, hbreaks₁⟩, houtput₂, hdiagnostics, hbreaks₂⟩ := hruns
      have hoverflow : ∀ line, overflowDiagnostic line ∉ r₂.diagnostics := by
        intro line
        rw [hdiagnostics]
        simp [overflowDiagnostic]
      obtain ⟨r, hr, hok, houtput, -, hbreaks⟩ := hagrees.1 hbreaks₁ r₂ h₂ hoverflow
      refine ⟨r, hr, ?_, ?_, ?_⟩
      · rw [hok, hfaulty]
        rfl
      · rw [houtput, houtput₁, houtput₂]
        rfl
      · rw [hbreaks, hbreaks₂]
        decide

end LoxScript
