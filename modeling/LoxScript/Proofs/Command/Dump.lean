import LoxScript.Command
import LoxScript.Proofs.Grammar.Depth

/-!
# The dump of a script

Where a dump is asked for, it is written before the script is run, and it changes nothing else: what
the script writes stands behind it (`Command.dump_comes_first`). But the tree of a script is shown by
descending into it, and for want of room that makes the command crash, although the script may run
well. The tree of a script has at most as many levels as the script has tokens. It need not be nested
for that: a chain of operators is as deep as it is long.
-/

namespace LoxScript

/-- The outcome in which `shown` stands before what is printed. -/
def Outcome.behind (shown : String) : Outcome → Outcome
  | exited code stdout stderr steps => exited code (shown ++ stdout) stderr steps
  | crashed c => crashed c

namespace Command

/-- A dump takes as much room as the deepest tree needs. -/
theorem dump?_eq_none {b : Bounds} {source : String} :
    dump? b source = none ↔ b.room <
      Stmt.deepest (Program.ofTokens b.nesting (Scan.ofSource source).tokens).statements := by
  unfold dump?
  dsimp only
  rw [← Nat.not_le, ← Stmt.allFit_iff]
  split <;> simp_all

/-- What is shown before a run does not matter to the run. -/
theorem runText_behind (b : Bounds) (shown source : String) :
    runText b shown source = (runText b "" source).behind shown := by
  unfold runText
  cases run b source Machine.fresh with
  | ok r => simp [Outcome.behind]
  | error h => rfl

/-- The arguments ask for a script, and this is the text of it. -/
def Reads (lookup : String → Lookup) (arguments : List String) (source : String) : Prop :=
  ∃ name bytes, Request.ofArguments arguments = .script name ∧ '\x00' ∉ name.toList ∧
    lookup name = .ok bytes ∧ decode? bytes = some source

section

variable {b : Bounds} {lookup : String → Lookup} {arguments : List String} {source : String}

/-- A script that is found is run, behind its dump if one is asked for. -/
theorem answer_of_reads (h : Reads lookup arguments source) (debug : Bool) (events : List Event) :
    answer b lookup debug events arguments =
      if debug then
        match dump? b source with
        | none => .crashed .tooDeep
        | some shown => runText b shown source
      else runText b "" source := by
  obtain ⟨name, bytes, hrequest, hzero, hfound, hdecoded⟩ := h
  have hname : ¬ name.toList.contains '\x00' = true := by simpa using hzero
  have hbytes : answer b lookup debug events arguments = runBytes b debug bytes := by
    simp only [answer, hrequest, runScript, if_neg hname, hfound]
  refine hbytes.trans ?_
  cases debug with
  | false => simp [runBytes, hdecoded]
  | true => cases hd : dump? b source <;> simp [runBytes, hdecoded, hd]

/-- Without the text of a script there is nothing to be shown. -/
theorem answer_of_not_reads (h : ∀ source, ¬ Reads lookup arguments source) (debug : Bool)
    (events : List Event) :
    answer b lookup debug events arguments = answer b lookup false events arguments := by
  unfold answer
  cases hrequest : Request.ofArguments arguments with
  | talk | usage => rfl
  | script name =>
    dsimp only [runScript]
    split
    · rfl
    · next hname =>
      cases hfound : lookup name with
      | error e => rfl
      | ok bytes =>
        cases hdecoded : decode? bytes with
        | none => simp only [runBytes, hdecoded]
        | some source =>
          exact absurd ⟨name, bytes, hrequest, by simpa using hname, hfound, hdecoded⟩ (h source)

end

/-- If a dump is asked for, then it comes first and changes nothing else: the command ends with the
same code, writes the same errors, and prints the dump and then what it prints without one. The only
exception is a tree that has more levels than there is room for, with which the command crashes; a
script with no more tokens than that has no such tree. Where no text of a script is read, asking for
a dump makes no difference. -/
theorem dump_comes_first (b : Bounds) (lookup : String → Lookup) (events : List Event)
    (arguments : List String) :
    (∀ source, Reads lookup arguments source →
      (∀ shown, dump? b source = some shown →
        answer b lookup true events arguments =
          (answer b lookup false events arguments).behind shown) ∧
      (dump? b source = none → answer b lookup true events arguments = .crashed .tooDeep) ∧
      (dump? b source = none ↔ b.room <
        Stmt.deepest (Program.ofTokens b.nesting (Scan.ofSource source).tokens).statements) ∧
      ((Scan.ofSource source).tokens.length ≤ b.room → ∃ shown, dump? b source = some shown)) ∧
    ((∀ source, ¬ Reads lookup arguments source) →
      answer b lookup true events arguments = answer b lookup false events arguments) := by
  refine ⟨fun source h => ⟨fun shown hshown => ?_, fun hnone => ?_, dump?_eq_none, fun hlen => ?_⟩,
    fun h => answer_of_not_reads h true events⟩
  · rw [answer_of_reads h, answer_of_reads h, hshown]
    exact runText_behind b shown source
  · rw [answer_of_reads h, hnone]
    rfl
  · cases hdump : dump? b source with
    | some shown => exact ⟨shown, rfl⟩
    | none =>
      have hdeep := dump?_eq_none.mp hdump
      have hdepth := Program.deepest_ofTokens b.nesting (Scan.ofSource source).tokens
      omega

/-- A folder whose only script prints a number. -/
def oneScript (name : String) : Lookup :=
  if name = "one.lox" then .ok "print 1;".toUTF8 else .error .missing

/-- The number stands behind the dump, if there is room for the dump; and the usage is shown as it is
without one. -/
theorem oneScript_is_shown :
    (∃ shown, dump? {} "print 1;" = some shown ∧
      answer {} oneScript true [] ["one.lox"] = .exited 0 (shown ++ "1\n") "" []) ∧
    answer { room := 1 } oneScript true [] ["one.lox"] = .crashed .tooDeep ∧
    answer {} oneScript true [] ["--help"] = answer {} oneScript false [] ["--help"] := by
  have hreads : Reads oneScript ["one.lox"] "print 1;" :=
    ⟨"one.lox", _, rfl, by decide, rfl, by decide +kernel⟩
  have hhelp : ∀ source, ¬ Reads oneScript ["--help"] source := by
    rintro source ⟨name, bytes, hname, -⟩
    cases hname
  obtain ⟨hfirst, -, -, hroom⟩ := (dump_comes_first {} oneScript [] ["one.lox"]).1 _ hreads
  obtain ⟨-, hdeep, hnone, -⟩ :=
    (dump_comes_first { room := 1 } oneScript [] ["one.lox"]).1 _ hreads
  refine ⟨?_, hdeep (hnone.mpr (by decide +kernel)),
    (dump_comes_first {} oneScript [] ["--help"]).2 hhelp⟩
  obtain ⟨shown, hshown⟩ := hroom (by decide +kernel)
  have hruns : answer {} oneScript false [] ["one.lox"] = .exited 0 "1\n" "" [] := by
    decide +kernel
  refine ⟨shown, hshown, ?_⟩
  rw [hfirst shown hshown, hruns]
  rfl

end Command

end LoxScript
