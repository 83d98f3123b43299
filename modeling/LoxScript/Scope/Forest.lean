import LoxScript.Scope.Basic

/-!
# Trees of scopes

Scopes that grow from one global scope: each of the others lies within a scope that was there
before. Scopes are numbered in the order of their creation, the global one being number zero. A
name resolves to the nearest scope that binds it on the way from a scope out to the global one.
-/

namespace LoxScript

/-- A scope in a tree. -/
structure ScopeNode where
  /-- The number of the scope around this one; the global scope has none. -/
  parent : Option Nat
  scope : Scope
deriving DecidableEq

/-- A tree of scopes, in the order of their creation. -/
structure Forest where
  nodes : List ScopeNode
deriving DecidableEq

namespace Forest

/-- The tree of an empty global scope. -/
def root : Forest := ⟨[⟨none, Scope.empty⟩]⟩

/-- The scope of the given number, if there is one. -/
def scope? (f : Forest) (i : Nat) : Option Scope := f.nodes[i]?.map ScopeNode.scope

/-- The numbers of the scopes from `i` outwards, `fuel` of them at most. -/
def pathUpTo (f : Forest) : (fuel i : Nat) → List Nat
  | 0, _ => []
  | fuel + 1, i =>
    match f.nodes[i]? with
    | none => []
    | some node =>
      match node.parent with
      | none => [i]
      | some p => i :: pathUpTo f fuel p

/-- The numbers of the scopes from `i` out to the global one. -/
def path (f : Forest) (i : Nat) : List Nat := f.pathUpTo f.nodes.length i

/-- The number of scopes around a scope. -/
def depth (f : Forest) (i : Nat) : Nat := (f.path i).length - 1

/-- Whether the scope of a given number binds a name itself. -/
def bindsAt (f : Forest) (name : String) (i : Nat) : Bool := (f.scope? i).any (·.binds name)

/-- The number of the scope that a name resolves to. -/
def resolve? (f : Forest) (i : Nat) (name : String) : Option Nat :=
  (f.path i).find? (f.bindsAt name)

/-- The value that a name stands for. -/
def find? (f : Forest) (i : Nat) (name : String) : Option Value := do
  let j ← f.resolve? i name
  let s ← f.scope? j
  s.find? name

/-- Binds a name in the scope of a given number. -/
def define (f : Forest) (i : Nat) (name : String) (value : Value) : Forest :=
  ⟨f.nodes.modify i fun n => { n with scope := n.scope.define name value }⟩

/-- Changes the binding that a name resolves to, if there is one. -/
def assign? (f : Forest) (i : Nat) (name : String) (value : Value) : Option Forest :=
  (f.resolve? i name).map fun j => f.define j name value

/-- Adds an empty scope within the scope of a given number. -/
def child (f : Forest) (i : Nat) : Forest := ⟨f.nodes ++ [⟨some i, Scope.empty⟩]⟩

/-- Whether a name stands for anything. -/
def contains (f : Forest) (i : Nat) (name : String) : Bool := (f.resolve? i name).isSome

/-- The bindings of a scope as a dump shows them. -/
def inspectBindings (s : Scope) : String :=
  ", ".intercalate (s.bindings.map fun b => Text.quoted b.1 ++ ": " ++ b.2.inspect)

/-- A scope as a dump shows it. -/
def inspect (f : Forest) (i : Nat) : String :=
  "Environment(\x7b" ++ inspectBindings ((f.scope? i).getD Scope.empty) ++ "\x7d, depth=" ++
    toString (f.depth i) ++ ")"

end Forest

end LoxScript
