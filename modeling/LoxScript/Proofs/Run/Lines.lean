import LoxScript.Proofs.Lexeme.Account
import LoxScript.Proofs.Run.Layout
import LoxScript.Proofs.Run.Session
import LoxScript.Proofs.Scoping.Containment

/-!
# Every reported line is one of the source

The lines of a run come from the scanner, and what a piece of the source yields is on a line of the
source. From there lines are handed on: from the tokens to the nodes of the tree, those of which a
"for" loop is put together included, and to the errors; and from the statements to the machine, which
notes the line of each one that it starts.

That nothing else gets in on the way follows from what is known about programs on other lines. To
clamp all lines to those of the source leaves its tokens where they are, and so it leaves everything
that comes of them where it is (`reported_lines_exist`).
-/

namespace LoxScript

/-! ## The lines of nodes -/

/-- The lines of all nodes of an expression. -/
def Expr.lines : Expr → List Int
  | literal _ l | read _ l | malformed _ l => [l]
  | unary _ e l | grouping e l | assign _ e l => l :: e.lines
  | binary e _ f l | logical e _ f l => l :: (e.lines ++ f.lines)

namespace Stmt

mutual

/-- The lines of all nodes of a statement. -/
def lines : Stmt → List Int
  | expression e l | print e l => l :: e.lines
  | declare _ first l => l :: (first.map Expr.lines).getD []
  | block body l => l :: linesAll body
  | ifThen c s l | loop c s l => l :: (c.lines ++ s.lines)
  | ifElse c s t l => l :: (c.lines ++ (s.lines ++ t.lines))
  | malformed _ l => [l]

/-- The lines of all nodes of statements. -/
def linesAll : List Stmt → List Int
  | [] => []
  | s :: ss => s.lines ++ linesAll ss

end

end Stmt

variable {g : Int → Int}

theorem map_eq_self_iff {α : Type} {f : α → α} {as : List α} : as.map f = as ↔ ∀ a ∈ as, f a = a := by
  simpa using List.map_inj_left (f := f) (g := id) (l := as)

theorem Expr.lines_moved (g : Int → Int) (e : Expr) : (e.moved g).lines = e.lines.map g := by
  induction e with
  | literal _ _ | read _ _ | malformed _ _ => rfl
  | unary op e l ih | grouping e l ih | assign name e l ih => simp only [moved, lines, ih, List.map_cons]
  | binary e op f l ihe ihf | logical e op f l ihe ihf =>
    simp only [moved, lines, ihe, ihf, List.map_cons, List.map_append]

namespace Stmt

mutual

theorem lines_moved (g : Int → Int) (s : Stmt) : (s.moved g).lines = s.lines.map g := by
  cases s with
  | expression e l | print e l => simp only [moved, lines, e.lines_moved, List.map_cons]
  | declare name first l =>
    cases first with
    | none => rfl
    | some e => simp [moved, lines, e.lines_moved]
  | block body l => simp only [moved, lines, linesAll_movedAll g body, List.map_cons]
  | ifThen c s l | loop c s l =>
    simp only [moved, lines, c.lines_moved, lines_moved g s, List.map_cons, List.map_append]
  | ifElse c s t l =>
    simp only [moved, lines, c.lines_moved, lines_moved g s, lines_moved g t, List.map_cons,
      List.map_append]
  | malformed kind l => rfl

theorem linesAll_movedAll (g : Int → Int) (ss : List Stmt) :
    linesAll (movedAll g ss) = (linesAll ss).map g := by
  cases ss with
  | nil => rfl
  | cons s ss =>
    simp only [movedAll, linesAll, lines_moved g s, linesAll_movedAll g ss, List.map_append]

end

mutual

theorem parts_moved (g : Int → Int) (s : Stmt) : (s.moved g).parts = s.parts.map (moved g) := by
  cases s with
  | block body l => simp only [moved, parts, partsAll_movedAll g body, List.map_cons]
  | ifThen c s l | loop c s l => simp only [moved, parts, parts_moved g s, List.map_cons]
  | ifElse c s t l =>
    simp only [moved, parts, parts_moved g s, parts_moved g t, List.map_cons, List.map_append]
  | expression e l | print e l | declare name first l | malformed kind l => rfl

theorem partsAll_movedAll (g : Int → Int) (ss : List Stmt) :
    partsAll (movedAll g ss) = (partsAll ss).map (moved g) := by
  cases ss with
  | nil => rfl
  | cons s ss =>
    simp only [movedAll, partsAll, parts_moved g s, partsAll_movedAll g ss, List.map_append]

end

end Stmt

/-! ## Starting a statement -/

namespace Stmt

variable {b : Bounds}

/-- A statement that is executed at all is started first. -/
theorem exists_start (b : Bounds) (room : Nat) (s : Stmt) :
    ∃ p : Exec Unit, s.exec b (room + 1) = Exec.start s.line >>= fun _ => p := by
  cases s with
  | declare name first l => cases first <;> exact ⟨_, rfl⟩
  | _ => exact ⟨_, rfl⟩

/-- So the line on which the machine was left before does not matter. -/
theorem exec_on_line (room : Nat) (s : Stmt) (m : Machine) (l : Int) :
    s.exec b (room + 1) { m with line := l } = s.exec b (room + 1) m := by
  obtain ⟨p, hp⟩ := exists_start b room s
  rw [hp]
  rfl

theorem execAll_on_line (room : Nat) {ss : List Stmt} (hss : ss ≠ []) (m : Machine) (l : Int) :
    execAll b (room + 1) ss { m with line := l } = execAll b (room + 1) ss m := by
  cases ss with
  | nil => exact absurd rfl hss
  | cons s ss =>
    rw [execAll_cons]
    exact bind_congr_state (exec_on_line room s m l)

/-- Where a program stays when it is moved, a machine on a line that stays ends on one that stays. -/
theorem line_execAll {ss : List Stmt} (hss : movedAll g ss = ss) (room : Nat) {m : Machine}
    (hm : g m.line = m.line) :
    g (endState (execAll b room ss m)).line = (endState (execAll b room ss m)).line := by
  have hstay : m.relabeled (.ofLines g) = m := by rw [m.relabeled_eq_moved, Machine.moved, hm]
  have hexec := execAll_relabeledAll (.ofLines g) Function.injective_id (b.relabeled_ofLines g) room
    ss m
  rw [relabeledAll_ofLines, hss, hstay] at hexec
  have hend := congrArg (fun r => (endState r).line) hexec
  simp only [endState_relabeledResult, Machine.relabeled_eq_moved] at hend
  exact hend.symm

end Stmt

/-! ## The lines of a source -/

namespace Scan

variable {source : String} {l : Int}

/-- The source has such a line. -/
def HasLine (source : String) (l : Int) : Prop := 1 ≤ l ∧ l ≤ lastLine source

/-- The line of the source that is next to the given one. -/
def nearest (source : String) (l : Int) : Int := max 1 (min l (lastLine source))

theorem hasLine_one (source : String) : HasLine source 1 := by
  unfold HasLine lastLine
  omega

theorem nearest_eq_iff : nearest source l = l ↔ HasLine source l := by
  have hone := hasLine_one source
  unfold nearest HasLine at *
  omega

@[simp] theorem nearest_one (source : String) : nearest source 1 = 1 :=
  nearest_eq_iff.mpr (hasLine_one source)

/-- What the pieces of a source yield is on the lines that they take up. -/
theorem line_ofPieces (line : Int) (ps : List Piece) :
    (∀ t ∈ (ofPieces line ps).tokens, line ≤ t.line ∧ t.line ≤ line + height ps) ∧
      ∀ e ∈ (ofPieces line ps).errors, line ≤ e.line ∧ e.line ≤ line + height ps := by
  induction ps generalizing line with
  | nil => simp [ofPieces, Token.endAt, height]
  | cons p ps ih =>
    obtain ⟨htokens, herrors⟩ := ih (line + Text.newlines p.chars)
    have hheight : 0 ≤ height ps := Int.natCast_nonneg _
    rw [height_cons]
    constructor
    · intro t ht
      rcases List.mem_append.mp ht with ht | ht
      · have hline : t.line = line + Text.newlines p.chars := by
          cases p <;> simp_all [Piece.token?]
        omega
      · have hlater := htokens t ht
        omega
    · intro e he
      rcases List.mem_append.mp he with he | he
      · have hline : e.line = line + Text.newlines p.chars := by
          cases p <;> simp_all [Piece.error?]
        omega
      · have hlater := herrors e he
        omega

/-- To clamp lines to those of the source changes nothing of its scan. -/
theorem relabeled_nearest (source : String) :
    (ofSource source).relabeled (.ofLines (nearest source)) = ofSource source := by
  obtain ⟨htokens, herrors⟩ := line_ofPieces 1 (pieces source.toList)
  rw [height_pieces] at htokens herrors
  unfold relabeled
  rw [Token.relabeled_ofLines]
  refine congrArg₂ Scan.mk (map_eq_self_iff.mpr fun t ht => ?_) (map_eq_self_iff.mpr fun e he => ?_)
  · have hline : nearest source t.line = t.line := nearest_eq_iff.mpr (htokens t ht)
    rw [Token.moved, hline]
  · have hline : nearest source e.line = e.line := nearest_eq_iff.mpr (herrors e he)
    rw [LexicalError.relabeled, Relabeling.line_ofLines, hline]

/-- Hence it changes nothing of what the source is read as. -/
theorem program_nearest (nesting : Nat) (source : String) :
    (Program.ofTokens nesting (ofSource source).tokens).relabeled (.ofLines (nearest source)) =
      Program.ofTokens nesting (ofSource source).tokens := by
  have htokens : (ofSource source).tokens.map (Token.relabeled (.ofLines (nearest source))) =
      (ofSource source).tokens := congrArg tokens (relabeled_nearest source)
  rw [← Program.ofTokens_relabeled _ _ _ fun _ => nearest_one source, htokens]

theorem statements_nearest (nesting : Nat) (source : String) :
    Stmt.movedAll (nearest source) (statementsOf nesting source) = statementsOf nesting source := by
  rw [← Stmt.relabeledAll_ofLines]
  exact congrArg Program.statements (program_nearest nesting source)

/-- Every node is on a line of the source. -/
theorem hasLine_of_mem_lines (nesting : Nat) :
    ∀ l ∈ Stmt.linesAll (statementsOf nesting source), HasLine source l := by
  have hlines : (Stmt.linesAll (statementsOf nesting source)).map (nearest source) =
      Stmt.linesAll (statementsOf nesting source) := by
    rw [← Stmt.linesAll_movedAll, statements_nearest]
  intro l hl
  exact nearest_eq_iff.mp (map_eq_self_iff.mp hlines l hl)

/-- On a machine that is on a line of the source, every fault is on such a line. -/
theorem hasLine_of_mem_faults {b : Bounds} {m : Machine} (hm : HasLine source m.line) :
    ∀ f ∈ (ofSource source).faults b m, HasLine source f.diagnostic.line := by
  have hstay : m.relabeled (.ofLines (nearest source)) = m := by
    rw [m.relabeled_eq_moved, Machine.moved, nearest_eq_iff.mpr hm]
  have hfaults :
      ((ofSource source).relabeled (.ofLines (nearest source))).faults b
          (m.relabeled (.ofLines (nearest source))) =
        ((ofSource source).faults b m).map (Fault.relabeled (.ofLines (nearest source))) :=
    faults_relabeled (fun _ => nearest_one source) Function.injective_id
      (b.relabeled_ofLines (nearest source))
  rw [relabeled_nearest, hstay] at hfaults
  intro f hf
  have hfixed := congrArg Fault.diagnostic (map_eq_self_iff.mp hfaults.symm f hf)
  rw [Fault.diagnostic_relabeled] at hfixed
  exact nearest_eq_iff.mp (congrArg Diagnostic.line hfixed)

/-- A fault does not depend on the line on which the machine was left before, unless there is no room
to start a statement. -/
theorem mem_faults_on_line {b : Bounds} {scan : Scan} {m : Machine} {f : Fault}
    (hf : f ∈ scan.faults b m) (l : Int) :
    f ∈ scan.faults b { m with line := l } ∨ b.room = 0 ∧ f = .overflow m.line := by
  rcases List.mem_append.mp hf with hf | hf
  · exact .inl (List.mem_append_left _ hf)
  · have hlast : scan.last b m = some f := by simpa using hf
    obtain ⟨-, hkept⟩ := late_of_last hlast
    -- the line is replaced by that of the first statement, if one is started
    cases hss : (scan.program b).statements with
    | nil =>
      have hdone : scan.outcome b m = .ok () { m with output := "" } := by
        rw [outcome, hss]
        rfl
      simp [last, hdone] at hlast
    | cons s ss =>
      cases hroom : b.room with
      | zero =>
        have hbreak : scan.outcome b m = .error .overflow { m with output := "" } := by
          rw [outcome, hss, hroom, Stmt.execAll_cons, exec_zero]
          rfl
        rw [last, hbreak, if_neg (by simp [hkept])] at hlast
        cases hlast
        exact .inr ⟨rfl, rfl⟩
      | succ room =>
        have hsame : scan.outcome b { m with line := l } = scan.outcome b m := by
          rw [outcome, outcome, hss, hroom]
          exact Stmt.execAll_on_line room (by simp) { m with output := "" } l
        have hlast' : scan.last b { m with line := l } = some f := by
          rw [last, hsame]
          exact hlast
        exact .inl (List.mem_append_right _ (by simp [hlast']))

/-- Once a statement of the source is started, the machine is on a line of the source. -/
theorem hasLine_execAll (b : Bounds) (room : Nat) {ss : List Stmt} (hss : ss ≠ [])
    (hstay : Stmt.movedAll (nearest source) ss = ss) (m : Machine) :
    HasLine source (endState (Stmt.execAll b (room + 1) ss m)).line := by
  rw [← Stmt.execAll_on_line room hss m 1]
  exact nearest_eq_iff.mp (Stmt.line_execAll hstay (room + 1) (nearest_one source))

/-- Each statement of the source can be taken by itself. -/
theorem moved_of_mem_partsAll {nesting : Nat} {s : Stmt}
    (hs : s ∈ Stmt.partsAll (statementsOf nesting source)) :
    Stmt.movedAll (nearest source) [s] = [s] := by
  have hparts : (Stmt.partsAll (statementsOf nesting source)).map (Stmt.moved (nearest source)) =
      Stmt.partsAll (statementsOf nesting source) := by
    rw [← Stmt.partsAll_movedAll, statements_nearest]
  rw [Stmt.movedAll, map_eq_self_iff.mp hparts s hs, Stmt.movedAll]

end Scan

open Scan

/-- Whatever a run reports is on a line of the source, from whatever machine it starts: a lexical error,
a syntax error, an error of the execution, and a stack overflow; only where there is no room to start
any statement at all, the overflow is on the line on which the machine was left before. Every node that
is built of the source is on such a line, at every depth of nesting. And once a statement of the source
was started, the machine is on such a line: at the end of the run, and wherever the execution of a
statement or of a part of one ends or breaks off. -/
theorem reported_lines_exist {b : Bounds} {source : String} {m : Machine} {r : Report}
    (h : run b source m = .ok r) :
    (∀ d ∈ r.diagnostics, HasLine source d.line ∨ b.room = 0 ∧ d = overflowDiagnostic m.line) ∧
      (∀ nesting, ∀ l ∈ Stmt.linesAll (statementsOf nesting source), HasLine source l) ∧
      (Kept b.nesting source → statementsOf b.nesting source ≠ [] → 0 < b.room →
        HasLine source r.machine.line) ∧
      ∀ s ∈ Stmt.partsAll (statementsOf b.nesting source), ∀ room m',
        HasLine source (endState (s.exec b (room + 1) m')).line := by
  have hends : ¬ (ofSource source).Unfinished b m := by
    intro hunfinished
    rw [← run_ofSource, run_of_unfinished hunfinished] at h
    cases h
  rw [← run_ofSource, run_of_ends hends] at h
  cases h
  refine ⟨?_, fun nesting => hasLine_of_mem_lines nesting, ?_, ?_⟩
  · intro d hd
    obtain ⟨f, hf, rfl⟩ := List.mem_map.mp hd
    rcases mem_faults_on_line hf 1 with hf | ⟨hroom, rfl⟩
    · exact .inl (hasLine_of_mem_faults (hasLine_one source) f hf)
    · exact .inr ⟨hroom, rfl⟩
  · intro hkept hss hroom
    obtain ⟨room, hroom⟩ := Nat.exists_eq_add_of_le' hroom
    have hfinish : (ofSource source).finish b m = endState ((ofSource source).outcome b m) :=
      if_neg (by rw [Scan.program, hkept]; simp)
    rw [hfinish, outcome, hroom]
    exact hasLine_execAll b room hss (statements_nearest b.nesting source) _
  · intro s hs room m'
    rw [← Stmt.execAll_singleton]
    exact hasLine_execAll b room (by simp) (moved_of_mem_partsAll hs) m'

/-- A source with an error of each kind; the last one comes up in the step of the loop. -/
def brokenLoopSource : String := "@\nnil = nil;\nfor (var a;\n  !a; b)\n  print a;\n"

/-- The machine was left far behind the last line of the source. -/
theorem brokenLoopSource_on_its_lines :
    ∃ r, run {} brokenLoopSource { Machine.fresh with line := 99 } = .ok r ∧
      r.diagnostics.map Diagnostic.line = [1, 2, 4] ∧
      (∀ d ∈ r.diagnostics, HasLine brokenLoopSource d.line) ∧
      HasLine brokenLoopSource r.machine.line ∧
      ∀ l ∈ Stmt.linesAll (statementsOf 1000 brokenLoopSource), HasLine brokenLoopSource l := by
  have hrun : (run {} brokenLoopSource { Machine.fresh with line := 99 }).toOption.map
      (fun r => r.diagnostics.map Diagnostic.line) = some [1, 2, 4] := by decide +kernel
  cases h : run {} brokenLoopSource { Machine.fresh with line := 99 } with
  | error halt =>
    rw [h] at hrun
    cases hrun
  | ok r =>
    rw [h] at hrun
    obtain ⟨hreported, hnodes, hmachine, -⟩ := reported_lines_exist h
    refine ⟨r, rfl, by simpa [Except.toOption] using hrun, fun d hd => ?_, ?_, hnodes 1000⟩
    · exact (hreported d hd).resolve_right fun hroom => absurd hroom.1 (by decide)
    · have hkept : (Program.ofTokens 1000 (ofSource brokenLoopSource).tokens).panicked = false := by
        decide +kernel
      have hsome : statementsOf 1000 brokenLoopSource ≠ [] := by
        intro hnil
        have hlength : (statementsOf 1000 brokenLoopSource).length = 2 := by decide +kernel
        rw [hnil] at hlength
        cases hlength
      exact hmachine hkept hsome (by decide)

end LoxScript
