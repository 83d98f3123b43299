import LoxScript.Proofs.Machine.Relabeling
import LoxScript.Proofs.Run.Verdict

/-!
# Running a program with other names and on other lines

If the tokens of a program get other labels, and the scopes it starts with get other names in the same
way, then the run does the same: the same is printed, the same scopes are left but for their names, and
the same faults are found but for their labels. This holds for every change of labels that makes no two
names one.
-/

namespace LoxScript

variable {ρ : Relabeling} {b b' : Bounds}

/-! ## Faults, scans and machines with other labels -/

/-- The error on another line. It mentions no names. -/
def LexicalError.relabeled (ρ : Relabeling) (e : LexicalError) : LexicalError :=
  ⟨e.cause, ρ.line e.line⟩

/-- The fault with other labels. -/
def Fault.relabeled (ρ : Relabeling) : Fault → Fault
  | lexical e => .lexical (e.relabeled ρ)
  | syntactic e => .syntactic (e.relabeled ρ)
  | runtime e => .runtime (e.relabeled ρ)
  | overflow line => .overflow (ρ.line line)

/-- What breaks off with another label is the fault with that label. -/
theorem Halt.fault?_relabeled (line : Int) (h : Halt) :
    (h.relabeled ρ).fault? (ρ.line line) = (h.fault? line).map (Fault.relabeled ρ) := by
  cases h <;> rfl

/-- The machine with other names in its scopes, on another line. What was printed stays as it is. -/
def Machine.relabeled (ρ : Relabeling) (m : Machine) : Machine :=
  ⟨m.chain.renamed ρ.name, ρ.line m.line, m.output⟩

/-- The scan with other labels on its tokens and errors. -/
def Scan.relabeled (ρ : Relabeling) (scan : Scan) : Scan :=
  ⟨scan.tokens.map (Token.relabeled ρ), scan.errors.map (LexicalError.relabeled ρ)⟩

/-- The same outcome with other labels. -/
def relabeledResult (ρ : Relabeling) :
    EStateM.Result Halt Machine Unit → EStateM.Result Halt Machine Unit
  | .ok u m => .ok u (m.relabeled ρ)
  | .error h m => .error (h.relabeled ρ) (m.relabeled ρ)

theorem endState_relabeledResult (r : EStateM.Result Halt Machine Unit) :
    endState (relabeledResult ρ r) = (endState r).relabeled ρ := by
  cases r <;> rfl

/-- On a machine with other labels, statements with other labels have the same outcome with other
labels. -/
theorem Stmt.execAll_relabeledAll (ρ : Relabeling) (hname : ρ.name.Injective)
    (hb : b.Relabeled ρ b') (room : Nat) (ss : List Stmt) (m : Machine) :
    execAll b' room (relabeledAll ρ ss) (m.relabeled ρ) =
      relabeledResult ρ (execAll b room ss m) := by
  have hmachine : ∀ m₁ m₁' : Machine,
      m₁.Relabeled ρ (fun l l' => l' = ρ.line l) "" m₁' → m₁' = m₁.relabeled ρ := by
    rintro m₁ ⟨chain, line, output⟩ ⟨hchain, hline, houtput⟩
    simp_all [Machine.relabeled]
  have hrelabels : Exec.Relabels ρ (fun l l' => l' = ρ.line l) "" (execAll b room ss)
      (execAll b' room (relabeledAll ρ ss)) :=
    execAll_relabeled hname (fun _ => by rfl) hb room ss
  have hexec := hrelabels m (m.relabeled ρ) ⟨rfl, rfl, by simp [Machine.relabeled]⟩
  generalize execAll b room ss m = r at hexec
  generalize execAll b' room (relabeledAll ρ ss) (m.relabeled ρ) = r' at hexec
  cases hexec with
  | ok hm =>
    rw [hmachine _ _ hm]
    rfl
  | error hm =>
    rw [hmachine _ _ hm]
    rfl

/-! ## Runs -/

namespace Scan

section

variable {scan : Scan} {m : Machine} (hone : scan.tokens = [] → ρ.line 1 = 1)

include hone in
/-- The tokens are read as the program with other labels. -/
theorem program_relabeled (hb : b.Relabeled ρ b') :
    (scan.relabeled ρ).program b' = (scan.program b).relabeled ρ := by
  unfold program
  rw [hb.nesting]
  exact Program.ofTokens_relabeled ρ b.nesting scan.tokens hone

variable (hname : ρ.name.Injective)

include hone hname

/-- Its execution has the outcome with other labels. -/
theorem outcome_relabeled (hb : b.Relabeled ρ b') :
    (scan.relabeled ρ).outcome b' (m.relabeled ρ) = relabeledResult ρ (scan.outcome b m) := by
  unfold outcome
  rw [program_relabeled hone hb, hb.room]
  exact Stmt.execAll_relabeledAll ρ hname hb b.room _ { m with output := "" }

theorem last_relabeled (hb : b.Relabeled ρ b') :
    (scan.relabeled ρ).last b' (m.relabeled ρ) = (scan.last b m).map (Fault.relabeled ρ) := by
  unfold last
  rw [program_relabeled hone hb, outcome_relabeled hone hname hb]
  show (if (scan.program b).panicked = true then _ else _) = _
  split
  · rfl
  · cases scan.outcome b m with
    | ok u m' => rfl
    | error h m' => exact h.fault?_relabeled m'.line

/-- The same faults come up, with other labels. -/
theorem faults_relabeled (hb : b.Relabeled ρ b') :
    (scan.relabeled ρ).faults b' (m.relabeled ρ) = (scan.faults b m).map (Fault.relabeled ρ) := by
  unfold faults
  rw [last_relabeled hone hname hb, program_relabeled hone hb, List.map_append, List.map_append,
    Option.toList_map]
  simp only [relabeled, Program.relabeled, List.map_map]
  rfl

/-- The machine behind the execution has the other names. -/
theorem finish_relabeled (hb : b.Relabeled ρ b') :
    (scan.relabeled ρ).finish b' (m.relabeled ρ) = (scan.finish b m).relabeled ρ := by
  unfold finish
  rw [program_relabeled hone hb, outcome_relabeled hone hname hb, endState_relabeledResult]
  show (if (scan.program b).panicked = true then _ else _) = _
  split <;> rfl

/-- A loop goes on for too long with other labels where it did before. -/
theorem unfinished_relabeled (hb : b.Relabeled ρ b') :
    (scan.relabeled ρ).Unfinished b' (m.relabeled ρ) ↔ scan.Unfinished b m := by
  have hkept : ((scan.relabeled ρ).program b').panicked = (scan.program b).panicked := by
    rw [program_relabeled hone hb]
    rfl
  unfold Unfinished
  rw [hkept, outcome_relabeled hone hname hb]
  cases scan.outcome b m with
  | ok u m' => simp [relabeledResult]
  | error h m' => cases h <;> simp [relabeledResult, Halt.relabeled]

end

/-- A program with other labels that is started on a machine with other labels ends exactly if the
program does, with the same faults but for their labels, and leaves the machine with other labels. -/
theorem run_relabeled (ρ : Relabeling) (scan : Scan) (m : Machine)
    (hone : scan.tokens = [] → ρ.line 1 = 1) (hname : ρ.name.Injective) (hb : b.Relabeled ρ b') :
    (scan.relabeled ρ).run b' (m.relabeled ρ) =
      (scan.run b m).map fun r =>
        ⟨r.ok, (scan.faults b m).map fun f => (f.relabeled ρ).diagnostic, r.machine.relabeled ρ⟩ := by
  have hunfinished : (scan.relabeled ρ).Unfinished b' (m.relabeled ρ) ↔ scan.Unfinished b m :=
    unfinished_relabeled hone hname hb
  by_cases h : scan.Unfinished b m
  · rw [run_of_unfinished h, run_of_unfinished (hunfinished.mpr h)]
    rfl
  · rw [run_of_ends h, run_of_ends fun h' => h (hunfinished.mp h'), faults_relabeled hone hname hb,
      finish_relabeled hone hname hb, List.isEmpty_map, List.map_map]
    rfl

end Scan

end LoxScript
