import LoxScript.Run
import LoxScript.Text.Blank

/-!
# The interactive prompt

The user types lines, which are gathered into entries. An entry that only fails because it ends too
early waits for more lines; any other is run at once, and so is a waiting entry when a blank line is
typed. An interruption discards a waiting entry, or leaves if there is none, and the words "exit"
and "quit" leave at any time.
-/

namespace LoxScript

/-- What the user does at a prompt. -/
inductive Event where
  | line (text : String)
  | interrupt
deriving DecidableEq

/-- A prompt, and what was written since the one before. -/
structure Step where
  prompt : String
  stdout : String
  stderr : String
deriving DecidableEq

/-- The state of a dialogue. -/
structure Dialogue where
  /-- The machine on which all entries run. -/
  machine : Machine
  /-- The lines of the waiting entry. -/
  pending : List String
deriving DecidableEq

/-- What a dialogue does about one event. -/
structure Reaction where
  dialogue : Dialogue
  stdout : String
  stderr : String
  leaves : Bool

namespace Dialogue

/-- The dialogue before the first line is typed. -/
def fresh : Dialogue := ⟨Machine.fresh, []⟩

/-- What greets the user. -/
def banner : String :=
  Text.line "Lox Language Interpreter - REPL" ++ Text.line "Type `exit` or `quit` to leave."

/-- The words that end a dialogue if one of them stands alone on a line. -/
def leavingWords : List String := ["exit", "quit"]

/-- The prompt shows whether lines are waiting to be completed. -/
def prompt (d : Dialogue) : String := if d.pending.isEmpty then "> " else "... "

/-- Runs the entry that consists of the given lines; no entry waits afterwards. -/
def enter (b : Bounds) (d : Dialogue) (lines : List String) : Except Halt Reaction := do
  let report ← run b (Text.joinLines lines) d.machine
  return ⟨⟨report.machine, []⟩, report.output, report.errorText, false⟩

/-- A typed line completes the entry that waits, or has it wait for more. A blank line ends the
wait, and a word for leaving ends the dialogue, whether or not an entry waits. -/
def onLine (b : Bounds) (d : Dialogue) (text : String) : Except Halt Reaction :=
  let word := Text.trim text
  if leavingWords.contains word then .ok ⟨d, "", "", true⟩
  else if !d.pending.isEmpty && word.isEmpty then d.enter b d.pending
  else
    let lines := d.pending ++ [text]
    if isIncomplete b (Text.joinLines lines) then .ok ⟨{ d with pending := lines }, "", "", false⟩
    else d.enter b lines

/-- An interrupt drops the entry that waits. If none does, it ends the dialogue. -/
def onInterrupt (d : Dialogue) : Reaction :=
  if d.pending.isEmpty then ⟨d, Text.line "\nInterrupted.", "", true⟩
  else ⟨{ d with pending := [] }, Text.line "\nDiscarded.", "", false⟩

/-- The reaction to what the user does. -/
def respond (b : Bounds) (d : Dialogue) : Event → Except Halt Reaction
  | .line text => d.onLine b text
  | .interrupt => .ok d.onInterrupt

/-- The end of the input ends the dialogue. An entry that waits is not run. -/
def onEnd (d : Dialogue) : Reaction := ⟨d, Text.line "", "", true⟩

end Dialogue

/-- The course of a dialogue. -/
structure Transcript where
  /-- The prompts in order. -/
  steps : List Step
  /-- What was done after the last prompt. -/
  final : Reaction

/-- The course of a dialogue that stands at a prompt with the given output behind it. -/
def Dialogue.converse (b : Bounds) (d : Dialogue) (stdout stderr : String) :
    List Event → Except Halt Transcript
  | [] => .ok ⟨[⟨d.prompt, stdout, stderr⟩], d.onEnd⟩
  | e :: es => do
    let reaction ← d.respond b e
    let step : Step := ⟨d.prompt, stdout, stderr⟩
    if reaction.leaves then return ⟨[step], reaction⟩
    else
      let later ← reaction.dialogue.converse b reaction.stdout reaction.stderr es
      return ⟨step :: later.steps, later.final⟩

/-- The course of a whole dialogue. -/
def Dialogue.transcript (b : Bounds) (events : List Event) : Except Halt Transcript :=
  fresh.converse b banner "" events

end LoxScript
