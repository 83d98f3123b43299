/-!
# Files under names

Which file a name leads to. A name is a path, walked component by component from the folder at hand,
or from the root if it begins with a slash: an empty component and a point stay in a directory, two
points leave it, and nothing can be entered below a file. Of what lies outside the folder, only the
files and directories that are listed exist.
-/

namespace LoxScript

/-- Why no file can be read under a name. -/
inductive ReadError where
  | missing
  | directory
  | notDirectory
  | denied
  /-- A part of it, or all of it, is too long. -/
  | tooLong
deriving DecidableEq, Repr

/-- What is found under a name: the bytes of a file, unless it cannot be read. -/
abbrev Lookup := Except ReadError ByteArray

/-- A place in a tree of directories: the components that lead there from the folder at hand, or,
after a slash as the first of them, from the root. -/
abbrev Place := List String

/-- A folder, and what is known of its surroundings. -/
structure Folder where
  /-- The files with their places. -/
  files : List (Place × ByteArray)
  /-- The places of further directories. -/
  directories : List Place

/-- What stands at a place of a folder. -/
inductive Entry where
  | file (bytes : ByteArray)
  | directory (place : Place)

namespace Folder

/-- The place from which absolute names are looked up. -/
def root : Place := ["/"]

/-- Where a name is looked up from. -/
def origin (name : String) : Place := if name.toList.head? = some '/' then root else []

/-- The parts of a name between its slashes. -/
def components (name : String) : List String := name.splitOn "/"

/-- Whether a component stays where it is. -/
def stays (component : String) : Bool := component == "" || component == "."

/-- The place that a name without double points stands for. -/
def placeOf (name : String) : Place := origin name ++ (components name).filter (!stays ·)

/-- The folder of the given files, with further directories. -/
def ofFiles (files : List (String × ByteArray)) (directories : List String) : Folder :=
  ⟨files.map fun f => (placeOf f.1, f.2), directories.map placeOf⟩

/-- The place around a place. The folder at hand lies in a directory of which nothing is known but
that it lies in the root. -/
def parent : Place → Place
  | [] => root ++ ["/"]
  | ["/"] => root
  | place => place.dropLast

/-- What stands at a place. A file brings the directories around it with it. -/
def entry? (f : Folder) (place : Place) : Option Entry :=
  match f.files.lookup place with
  | some bytes => some (.file bytes)
  | none =>
    if f.directories.contains place || f.files.any (place.isPrefixOf ·.1) then
      some (.directory place)
    else none

/-- The largest number of bytes of a component. -/
def componentLimit : Nat := 255

/-- The number of bytes from which on a name is too long. -/
def nameLimit : Nat := 4096

/-- Goes on by one component. -/
def step (f : Folder) : Entry → String → Except ReadError Entry
  | .file _, _ => .error .notDirectory
  | .directory place, component =>
    if stays component then .ok (.directory place)
    else if component = ".." then .ok (.directory (parent place))
    else if componentLimit < component.utf8ByteSize then .error .tooLong
    else
      match f.entry? (place ++ [component]) with
      | some e => .ok e
      | none => .error .missing

/-- What a name leads to. -/
def lookup (f : Folder) (name : String) : Lookup :=
  if name.isEmpty then .error .missing
  else if nameLimit ≤ name.utf8ByteSize then .error .tooLong
  else
    match (components name).foldlM f.step (.directory (origin name)) with
    | .ok (.file bytes) => .ok bytes
    | .ok (.directory _) => .error .directory
    | .error e => .error e

end Folder

end LoxScript
