import LoxScript.Folder
import LoxScript.Grammar.Display
import LoxScript.Prompt

/-!
# The command line

Without arguments the command starts a dialogue; with the name of a script it runs the script, after
a dump of its tokens and its tree if one is asked for; with a request for help, and with anything
else, it shows how it is used.

A script is read as UTF-8 in the strict sense. Bytes that are no UTF-8 make the command crash, and so
do a name that no file can have and the dump of a tree that is too deep to be shown; these outcomes
are kept apart from the exits.
-/

namespace LoxScript

/-- The report of a file that cannot be read: the kind of error, its number, what it means, and the
name of the file. -/
def ReadError.message (e : ReadError) (name : String) : String :=
  let cause :=
    match e with
    | missing => "FileNotFoundError: [Errno 2] No such file or directory: "
    | directory => "IsADirectoryError: [Errno 21] Is a directory: "
    | notDirectory => "NotADirectoryError: [Errno 20] Not a directory: "
    | denied => "PermissionError: [Errno 13] Permission denied: "
    | tooLong => "OSError: [Errno 36] File name too long: "
  cause ++ Text.quoted name

/-- Why the command crashes. -/
inductive Crash where
  /-- The name of the script holds the character of number zero, so that no file can have it. -/
  | unusableName
  /-- The script is no valid UTF-8. -/
  | undecodable
  /-- A tree is too deep to be shown. -/
  | tooDeep
  /-- The run of a program breaks off for no reason that lies in the program. -/
  | halted (h : Halt)
deriving DecidableEq

/-- How the command ends. -/
inductive Outcome where
  | exited (code : Nat) (stdout stderr : String) (steps : List Step)
  | crashed (c : Crash)
deriving DecidableEq

namespace Command

/-- The help text of the command line. -/
def usage : String :=
  String.join <| List.map Text.line
    ["", "Lox Language Interpreter", "", "Usage:", "    lox [script.lox]", "", "Arguments:",
      "    <script.lox>", "        Path to a Lox source file to execute.", "", "Example:",
      "    lox hello.lox", "", "Or run with no arguments to enter interactive mode (REPL).", "",
      "Options:", "    -h, --help", "        Show this help message and exit."]

/-- The text of a script, if its bytes are valid. Line ends are unified; nothing else is changed. -/
def decode? (bytes : ByteArray) : Option String :=
  (String.fromUTF8? bytes).map fun s => String.ofList (Text.unified s.toList)

/-- The dump of a source text, if its tree can be shown. -/
def dump? (b : Bounds) (source : String) : Option String :=
  let scan := Scan.ofSource source
  let statements := (Program.ofTokens b.nesting scan.tokens).statements
  if Stmt.allFit b.room statements then
    some <| Text.line "\nTokens:\n" ++ String.join (scan.tokens.map (Text.line ·.inspect)) ++
      Text.line "\nAST:\n" ++ String.join (statements.map (Text.line ·.display)) ++ Text.line " "
  else none

/-- Runs the text of a script; `shown` stands before its output. -/
def runText (b : Bounds) (shown source : String) : Outcome :=
  match run b source Machine.fresh with
  | .ok report => .exited (if report.ok then 0 else 1) (shown ++ report.output) report.errorText []
  | .error h => .crashed (.halted h)

/-- Runs a script of which the bytes are given, after its dump if one is asked for. -/
def runBytes (b : Bounds) (debug : Bool) (bytes : ByteArray) : Outcome :=
  match decode? bytes with
  | none => .crashed .undecodable
  | some source =>
    if debug then
      match dump? b source with
      | none => .crashed .tooDeep
      | some shown => runText b shown source
    else runText b "" source

/-- Runs the script of a given name. -/
def runScript (b : Bounds) (lookup : String → Lookup) (debug : Bool) (name : String) : Outcome :=
  if name.toList.contains '\x00' then .crashed .unusableName
  else
    match lookup name with
    | .error e => .exited 1 "" (Text.line (e.message name)) []
    | .ok bytes => runBytes b debug bytes

/-- Holds a dialogue; what is written before each prompt is kept apart. -/
def talk (b : Bounds) (events : List Event) : Outcome :=
  match Dialogue.transcript b events with
  | .ok t => .exited 0 t.final.stdout t.final.stderr t.steps
  | .error h => .crashed (.halted h)

/-- What the arguments ask for. -/
inductive Request where
  | talk
  /-- The usage, with the given exit code. -/
  | usage (code : Nat)
  | script (name : String)
deriving DecidableEq

/-- One argument that asks for no help is the name of a script; more than one are an error. -/
def Request.ofArguments : List String → Request
  | [] => talk
  | [a] => if a == "-h" || a == "--help" then usage 0 else script a
  | _ => usage 1

/-- What comes of the command line, given what names stand for and what the user does. -/
def answer (b : Bounds) (lookup : String → Lookup) (debug : Bool) (events : List Event)
    (arguments : List String) : Outcome :=
  match Request.ofArguments arguments with
  | .talk => talk b events
  | .usage code => .exited code usage "" []
  | .script name => runScript b lookup debug name

end Command

end LoxScript
