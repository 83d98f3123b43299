import LoxScript.Command
import LoxScript.Proofs.Run.Verdict

/-!
# How the command ends

Whatever goes wrong in a program is reported, and then the command exits. A script that cannot be
opened is reported as well. What is left are two kinds of crash, in which the command breaks off before
anything is run: no file can have the name of the script, or its bytes are no valid UTF-8
(`Command.exits_or_crashes`).
-/

namespace LoxScript

/-- The kind of an error that keeps a file from being read. -/
def ReadError.kind : ReadError → String
  | missing => "FileNotFoundError"
  | directory => "IsADirectoryError"
  | notDirectory => "NotADirectoryError"
  | denied => "PermissionError"
  | tooLong => "OSError"

/-- The number of such an error, and what it means. -/
def ReadError.meaning : ReadError → String
  | missing => "[Errno 2] No such file or directory: "
  | directory => "[Errno 21] Is a directory: "
  | notDirectory => "[Errno 20] Not a directory: "
  | denied => "[Errno 13] Permission denied: "
  | tooLong => "[Errno 36] File name too long: "

/-- The message on a script that cannot be read has three parts. -/
theorem ReadError.message_eq (e : ReadError) (name : String) :
    e.message name = e.kind ++ ": " ++ (e.meaning ++ Text.quoted name) := by
  rw [← String.append_assoc]
  cases e <;> exact congrArg (· ++ Text.quoted name) (by decide +kernel)

/-! ## Runs and dialogues -/

/-- Nothing but a loop that goes on for too long keeps a run from a report. -/
theorem halt_of_run {b : Bounds} {source : String} {m : Machine} {h : Halt}
    (hrun : run b source m = .error h) : h = .unfinished := by
  rcases run_judges b source m with ⟨r, hok, -⟩ | ⟨herror, -⟩
  · rw [hok] at hrun
    cases hrun
  · rw [herror] at hrun
    cases hrun
    rfl

namespace Dialogue

variable {b : Bounds} {d : Dialogue} {h : Halt}

theorem halt_of_enter {lines : List String} (henter : d.enter b lines = .error h) :
    h = .unfinished := by
  unfold enter at henter
  cases hrun : run b (Text.joinLines lines) d.machine with
  | error halt =>
    rw [hrun] at henter
    cases henter
    exact halt_of_run hrun
  | ok r =>
    rw [hrun] at henter
    cases henter

/-- Only a loop that goes on for too long breaks off a reaction. -/
theorem halt_of_respond {e : Event} (hrespond : d.respond b e = .error h) : h = .unfinished := by
  cases e with
  | interrupt => cases hrespond
  | line text =>
    unfold respond onLine at hrespond
    dsimp only at hrespond
    split at hrespond
    · cases hrespond
    · split at hrespond
      · exact halt_of_enter hrespond
      · split at hrespond
        · cases hrespond
        · exact halt_of_enter hrespond

theorem halt_of_converse {out err : String} {es : List Event}
    (hconverse : d.converse b out err es = .error h) : h = .unfinished := by
  induction es generalizing d out err with
  | nil => cases hconverse
  | cons e es ih =>
    rw [converse] at hconverse
    cases hrespond : d.respond b e with
    | error halt =>
      rw [hrespond] at hconverse
      cases hconverse
      exact halt_of_respond hrespond
    | ok r =>
      rw [hrespond] at hconverse
      change (if r.leaves then Except.ok _ else
        r.dialogue.converse b r.stdout r.stderr es >>= fun later => .ok _) = _ at hconverse
      split at hconverse
      · cases hconverse
      · cases hlater : r.dialogue.converse b r.stdout r.stderr es with
        | error halt =>
          rw [hlater] at hconverse
          cases hconverse
          exact ih hlater
        | ok t =>
          rw [hlater] at hconverse
          cases hconverse

end Dialogue

namespace Command

/-- The bytes of a script are read as text exactly if they are valid UTF-8. -/
theorem decode?_eq_none {bytes : ByteArray} : decode? bytes = none ↔ ¬ bytes.IsValidUTF8 := by
  unfold decode? String.fromUTF8?
  split <;> simp_all

/-- The arguments ask for a script that cannot be read as text: no file can have its name, or its
bytes are no valid UTF-8. -/
def Unreadable (lookup : String → Lookup) (arguments : List String) : Prop :=
  ∃ name, Request.ofArguments arguments = .script name ∧
    ('\x00' ∈ name.toList ∨ ∃ bytes, lookup name = .ok bytes ∧ ¬ bytes.IsValidUTF8)

/-- The command exits with the code zero or one. -/
def Exits (o : Outcome) : Prop :=
  ∃ code stdout stderr steps, o = .exited code stdout stderr steps ∧ (code = 0 ∨ code = 1)

/-- The command goes on for longer than the turns last that are granted to a loop. -/
def Unended (o : Outcome) : Prop := o = .crashed (.halted .unfinished)

variable {b : Bounds} {lookup : String → Lookup} {arguments : List String} {events : List Event}

theorem code_of_usage {code : Nat} (h : Request.ofArguments arguments = .usage code) :
    code = 0 ∨ code = 1 := by
  unfold Request.ofArguments at h
  split at h
  · cases h
  · split at h
    · cases h
      exact .inl rfl
    · cases h
  · cases h
    exact .inr rfl

/-- A dialogue exits, or one of its loops goes on for too long. -/
theorem talk_ends (b : Bounds) (events : List Event) :
    Exits (talk b events) ∨ Unended (talk b events) := by
  unfold talk
  cases h : Dialogue.transcript b events with
  | ok t => exact .inl ⟨0, _, _, _, rfl, .inl rfl⟩
  | error halt =>
    obtain rfl := Dialogue.halt_of_converse h
    exact .inr rfl

/-- A script exits, or one of its loops goes on for too long. -/
theorem runText_ends (b : Bounds) (shown source : String) :
    Exits (runText b shown source) ∨ Unended (runText b shown source) := by
  unfold runText
  cases h : run b source Machine.fresh with
  | ok r =>
    refine .inl ⟨_, _, _, _, rfl, ?_⟩
    cases r.ok with
    | true => exact .inl rfl
    | false => exact .inr rfl
  | error halt =>
    obtain rfl := halt_of_run h
    exact .inr rfl

/-- A script that cannot be read as text makes the command crash. -/
theorem answer_of_unreadable (h : Unreadable lookup arguments) :
    answer b lookup false events arguments = .crashed .unusableName ∨
      answer b lookup false events arguments = .crashed .undecodable := by
  obtain ⟨name, hrequest, hname⟩ := h
  unfold answer
  rw [hrequest]
  unfold runScript
  by_cases hzero : '\x00' ∈ name.toList
  · exact .inl (if_pos (by simpa using hzero))
  · obtain ⟨bytes, hfound, hinvalid⟩ := hname.resolve_left hzero
    refine .inr ((if_neg (by simpa using hzero)).trans ?_)
    rw [hfound]
    simp only [runBytes, decode?_eq_none.mpr hinvalid]

/-- In every other case it exits, unless a program goes on for too long. -/
theorem answer_ends (h : ¬ Unreadable lookup arguments) :
    Exits (answer b lookup false events arguments) ∨
      Unended (answer b lookup false events arguments) := by
  unfold answer
  cases hrequest : Request.ofArguments arguments with
  | talk => exact talk_ends b events
  | usage code => exact .inl ⟨code, _, _, _, rfl, code_of_usage hrequest⟩
  | script name =>
    have hzero : '\x00' ∉ name.toList := fun hzero => h ⟨name, hrequest, .inl hzero⟩
    dsimp only
    unfold runScript
    rw [if_neg (by simpa using hzero)]
    cases hfound : lookup name with
    | error e => exact .inl ⟨1, _, _, _, rfl, .inr rfl⟩
    | ok bytes =>
      cases hdecoded : decode? bytes with
      | none => exact absurd ⟨name, hrequest, .inr ⟨bytes, hfound, decode?_eq_none.mp hdecoded⟩⟩ h
      | some source =>
        have htext : runBytes b false bytes = runText b "" source := by
          simp [runBytes, hdecoded]
        dsimp only
        rw [htext]
        exact runText_ends b "" source

/-- Whenever the command ends, without a dump, it exits with the code zero or one, unless it is asked
for a script that cannot be read as text; and then it crashes. A script that cannot be opened is
reported: the command writes the kind of the error and what it means, and exits with the code one
before anything is run. -/
theorem exits_or_crashes (b : Bounds) (lookup : String → Lookup) (events : List Event)
    (arguments : List String) :
    (¬ Unended (answer b lookup false events arguments) →
      (Exits (answer b lookup false events arguments) ↔ ¬ Unreadable lookup arguments)) ∧
    (Unreadable lookup arguments →
      answer b lookup false events arguments = .crashed .unusableName ∨
        answer b lookup false events arguments = .crashed .undecodable) ∧
    ∀ name e, Request.ofArguments arguments = .script name → '\x00' ∉ name.toList →
      lookup name = .error e →
        answer b lookup false events arguments =
          .exited 1 "" (Text.line (e.kind ++ ": " ++ (e.meaning ++ Text.quoted name))) [] := by
  refine ⟨fun hends => ⟨?_, fun h => (answer_ends h).resolve_right hends⟩, answer_of_unreadable, ?_⟩
  · rintro ⟨code, stdout, stderr, steps, hexits, -⟩ hunreadable
    have hcrashes : answer b lookup false events arguments = .crashed .unusableName ∨
        answer b lookup false events arguments = .crashed .undecodable :=
      answer_of_unreadable hunreadable
    rw [hexits] at hcrashes
    rcases hcrashes with h | h <;> cases h
  · intro name e hrequest hzero hfound
    have hcontains : ¬ name.toList.contains '\x00' = true := by simpa using hzero
    rw [answer, hrequest, ← ReadError.message_eq]
    simp only [runScript, hcontains, hfound, if_false, Bool.false_eq_true]

/-- A folder without files, except for one that consists of a byte which stands nowhere in UTF-8. -/
def strayByte (name : String) : Lookup :=
  if name = "stray.lox" then .ok ⟨#[0xFF]⟩ else .error .missing

theorem missingScript_exits :
    Exits (answer {} strayByte false [] ["other.lox"]) ∧
      answer {} strayByte false [] ["other.lox"] =
        .exited 1 "" "FileNotFoundError: [Errno 2] No such file or directory: 'other.lox'\n" [] := by
  have hmissing : strayByte "other.lox" = .error .missing := if_neg (by decide)
  have hreadable : ¬ Unreadable strayByte ["other.lox"] := by
    rintro ⟨name, hname, hzero | ⟨bytes, hbytes, -⟩⟩
    · cases hname
      revert hzero
      decide
    · cases hname
      rw [hmissing] at hbytes
      cases hbytes
  have hends : ¬ Unended (answer {} strayByte false [] ["other.lox"]) := by
    unfold Unended
    decide +kernel
  obtain ⟨hexits, -, hreported⟩ := exits_or_crashes {} strayByte [] ["other.lox"]
  refine ⟨(hexits hends).mpr hreadable, ?_⟩
  rw [hreported "other.lox" .missing rfl (by decide) hmissing]
  decide +kernel

/-- The byte makes the command crash, which does not exit with any code. -/
theorem strayByte_crashes :
    answer {} strayByte false [] ["stray.lox"] = .crashed .undecodable ∧
      ¬ Exits (answer {} strayByte false [] ["stray.lox"]) := by
  have hcrashes : answer {} strayByte false [] ["stray.lox"] = .crashed .undecodable := by
    decide +kernel
  refine ⟨hcrashes, ?_⟩
  rintro ⟨code, stdout, stderr, steps, hexits, -⟩
  rw [hcrashes] at hexits
  cases hexits

end Command

end LoxScript
