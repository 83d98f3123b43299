import LoxScript.Proofs.Run.Relabeling

/-!
# Names matter only up to renaming

The language asks only whether two names are the same. So if the variables of a program are renamed, no
two of them to the same name, and the variables that the program finds in its scopes likewise, then the
program prints the same, fails in the same way, and leaves the same variables under their new names
(`run_up_to_names`). Where a report quotes a name, it quotes the new one.
-/

namespace LoxScript

/-- Other names, on the same lines. -/
def Relabeling.ofNames (f : String → String) : Relabeling := ⟨f, id⟩

/-- The scan in which the variables have other names: the lexeme of every identifier is changed. -/
def Scan.renamed (f : String → String) (scan : Scan) : Scan :=
  { scan with
    tokens := scan.tokens.map fun t =>
      if t.kind = .identifier then { t with lexeme := f t.lexeme } else t }

/-- The machine in whose scopes the variables have other names. -/
def Machine.renamed (f : String → String) (m : Machine) : Machine :=
  { m with chain := m.chain.renamed f }

/-- The report of a fault, with the name changed that it quotes. A syntax error quotes the token that
it blames, which may be a name; of the errors of a running program, one quotes a name. -/
def Fault.renamedDiagnostic (f : String → String) : Fault → Diagnostic
  | lexical e => e.diagnostic
  | syntactic e =>
    if e.token.kind = .identifier then
      { e.diagnostic with location := " at '" ++ f e.token.lexeme ++ "'" }
    else e.diagnostic
  | runtime e =>
    if e.cause = .undefinedVariable then
      { e.diagnostic with message := "Undefined variable '" ++ f e.token.lexeme ++ "'." }
    else e.diagnostic
  | overflow line => overflowDiagnostic line

variable {f : String → String}

/-! ## Other names as other labels -/

/-- Where only the names are other ones, a label is the lexeme of an identifier. -/
theorem Token.relabeled_ofNames (t : Token) :
    t.relabeled (.ofNames f) =
      if t.kind = .identifier then { t with lexeme := f t.lexeme } else t := by
  unfold Token.relabeled
  split <;> rfl

/-- A scan with other names only is one that is renamed. -/
theorem Scan.relabeled_ofNames (scan : Scan) : scan.relabeled (.ofNames f) = scan.renamed f := by
  have herrors : scan.errors.map (LexicalError.relabeled (.ofNames f)) = scan.errors :=
    List.map_id' scan.errors
  unfold relabeled renamed
  rw [herrors]
  exact congrArg (fun g => (⟨scan.tokens.map g, scan.errors⟩ : Scan))
    (funext Token.relabeled_ofNames)

theorem SyntaxError.diagnostic_renamed (e : SyntaxError) :
    (e.relabeled (.ofNames f)).diagnostic = (Fault.syntactic e).renamedDiagnostic f := by
  by_cases hk : e.token.kind = .identifier
  · simp [relabeled, Token.relabeled_ofNames, Fault.renamedDiagnostic, diagnostic, Token.location, hk]
  · simp [relabeled, Token.relabeled_ofNames, Fault.renamedDiagnostic, hk]

theorem RuntimeError.diagnostic_renamed (e : RuntimeError) :
    (e.relabeled (.ofNames f)).diagnostic = (Fault.runtime e).renamedDiagnostic f := by
  obtain ⟨token, cause⟩ := e
  cases cause <;> rfl

/-- A fault with another name is reported with that name. -/
theorem Fault.diagnostic_renamed (fault : Fault) :
    (fault.relabeled (.ofNames f)).diagnostic = fault.renamedDiagnostic f := by
  cases fault with
  | lexical e => rfl
  | syntactic e => exact e.diagnostic_renamed
  | runtime e => exact e.diagnostic_renamed
  | overflow line => rfl

/-! ## Runs -/

/-- If the variables of a program and those in the scopes that it starts with are renamed, no two of
them to the same name, then the program ends if it did before, with the same success, the same output,
the same faults but for the names that their reports quote, and the same scopes but for the names in
them, which keep their order. -/
theorem run_up_to_names (f : String → String) (hf : f.Injective) (b : Bounds)
    (trap : String → Bool) (htrap : ∀ x, trap (f x) = b.trap x) (scan : Scan) (m : Machine) :
    (∃ r r', scan.run b m = .ok r ∧
        (scan.renamed f).run { b with trap := trap } (m.renamed f) = .ok r' ∧
        r'.ok = r.ok ∧ r'.output = r.output ∧
        r.diagnostics = (scan.faults b m).map Fault.diagnostic ∧
        r'.diagnostics = (scan.faults b m).map (Fault.renamedDiagnostic f) ∧
        r'.machine = r.machine.renamed f) ∨
      scan.run b m = .error .unfinished ∧
        (scan.renamed f).run { b with trap := trap } (m.renamed f) = .error .unfinished := by
  have hb : b.Relabeled (.ofNames f) { b with trap := trap } := ⟨rfl, rfl, rfl, htrap⟩
  have hmachine : m.relabeled (.ofNames f) = m.renamed f := rfl
  have hrun := Scan.run_relabeled (.ofNames f) scan m (fun _ => rfl) hf hb
  rw [scan.relabeled_ofNames, hmachine] at hrun
  by_cases hends : scan.Unfinished b m
  · have hbefore := Scan.run_of_unfinished hends
    rw [hbefore] at hrun
    exact .inr ⟨hbefore, hrun⟩
  · have hbefore := Scan.run_of_ends hends
    rw [hbefore] at hrun
    refine .inl ⟨_, _, hbefore, hrun, rfl, rfl, rfl, ?_, rfl⟩
    exact List.map_congr_left fun fault _ => fault.diagnostic_renamed

/-- A block shadows a variable that the program finds, and a name is not bound. -/
def strangerSource : String := "{ var c = true; print c; } c = true; print a;"

theorem strangerSource_with_prefix :
    ∃ r, ((Scan.ofSource strangerSource).renamed ("my_" ++ ·)).run {}
        (Machine.ofGlobal ⟨[("my_c", .nil)]⟩) = .ok r ∧
      r.ok = false ∧ r.output = "true\n" ∧
      r.diagnostics = [⟨1, "", "Undefined variable 'my_a'."⟩] ∧
      r.machine.chain.global = ⟨[("my_c", .bool true)]⟩ := by
  have hinjective : Function.Injective fun x : String => "my_" ++ x := by
    intro x y h
    simpa using h
  have hbefore : ((Scan.ofSource strangerSource).run {} (Machine.ofGlobal ⟨[("c", .nil)]⟩)).toOption.map
      (fun r => (r.ok, r.output, r.machine.chain.global)) =
        some (false, "true\n", ⟨[("c", .bool true)]⟩) := by decide +kernel
  have hfaults : ((Scan.ofSource strangerSource).faults {}
      (Machine.ofGlobal ⟨[("c", .nil)]⟩)).map (Fault.renamedDiagnostic ("my_" ++ ·)) =
      [⟨1, "", "Undefined variable 'my_a'."⟩] := by decide +kernel
  rcases run_up_to_names ("my_" ++ ·) hinjective {} (fun _ => false) (fun _ => rfl)
    (Scan.ofSource strangerSource) (Machine.ofGlobal ⟨[("c", .nil)]⟩) with
    ⟨r, r', hr, hr', hok, houtput, -, hdiagnostics, hmachine⟩ | ⟨hunfinished, -⟩
  · rw [hr] at hbefore
    simp only [Except.toOption, Option.map_some, Option.some.injEq, Prod.mk.injEq] at hbefore
    obtain ⟨hfails, hprints, hglobal⟩ := hbefore
    refine ⟨r', hr', hok.trans hfails, houtput.trans hprints, hdiagnostics.trans hfaults, ?_⟩
    rw [hmachine, Machine.renamed, Chain.renamed, hglobal]
    rfl
  · rw [hunfinished] at hbefore
    cases hbefore

end LoxScript
