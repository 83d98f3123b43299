import LoxScript.Command

/-!
# The program

Connects the command line to the files, the environment and the terminal. All that it writes is
computed elsewhere.
-/

namespace LoxScript.Terminal

/-- Reads the file of a given name. -/
def lookup (name : String) : IO Lookup := do
  try
    return .ok (← IO.FS.readBinFile name)
  catch e =>
    match e with
    | .noFileOrDirectory .. | .noSuchThing .. => return .error .missing
    | .permissionDenied .. => return .error .denied
    | .inappropriateType _ 20 _ => return .error .notDirectory
    | _ => return .error .directory

/-- Writes to both outputs. -/
def write (stdout stderr : String) : IO Unit := do
  IO.print stdout
  IO.eprint stderr
  (← IO.getStdout).flush

/-- A typed line without its line feed, or nothing at the end of the input. -/
def readLine (prompt : String) : IO (Option String) := do
  write prompt ""
  let text ← (← IO.getStdin).getLine
  if text.isEmpty then return none
  else return some (String.ofList (text.toList.reverse.dropWhile (· == '\n')).reverse)

/-- Writes what an event leads to. -/
def perform (reaction : Except Halt Reaction) : IO (Option Dialogue) := do
  match reaction with
  | .error h =>
    write "" (Text.line h.message)
    return none
  | .ok r =>
    write r.stdout r.stderr
    return if r.leaves then none else some r.dialogue

/-- Holds a dialogue at the terminal. -/
partial def talk (b : Bounds) (d : Dialogue) : IO Unit := do
  let reaction ←
    match ← readLine d.prompt with
    | some text => pure (d.respond b (.line text))
    | none => pure (.ok d.onEnd)
  match ← perform reaction with
  | some d => talk b d
  | none => return

/-- The wording of a crash. -/
def crashText : Crash → String
  | .unusableName => "No file can have this name."
  | .undecodable => "The script is not valid UTF-8."
  | .tooDeep => "The tree is too deep to be shown."
  | .halted h => h.message

/-- Writes how the command ends, and gives its exit code. -/
def finish : Outcome → IO UInt32
  | .exited code stdout stderr _ => do
    write stdout stderr
    return code.toUInt32
  | .crashed c => do
    write "" (Text.line (crashText c))
    return 1

/-- Answers the arguments. -/
def answer (arguments : List String) : IO UInt32 := do
  let b : Bounds := {}
  match Command.Request.ofArguments arguments with
  | .talk =>
    write Dialogue.banner ""
    talk b .fresh
    return 0
  | .usage _ => finish (Command.answer b (fun _ => .error .missing) false [] arguments)
  | .script name =>
    let found ← lookup name
    let debug := ((← IO.getEnv "LOXDEBUG").map (!·.isEmpty)).getD false
    finish (Command.answer b (fun _ => found) debug [] arguments)

end LoxScript.Terminal

/-- The entry point. -/
def main (arguments : List String) : IO UInt32 := LoxScript.Terminal.answer arguments
