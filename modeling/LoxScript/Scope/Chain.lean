import LoxScript.Scope.Basic

/-!
# Chains of scopes

While a program runs, its scopes form a chain from the innermost one out to the global one. A name
stands for the binding in the nearest scope that has one; a definition concerns the innermost scope
only.
-/

namespace LoxScript

/-- A chain of scopes. -/
structure Chain where
  /-- The scopes inside the global one, the innermost first. -/
  inner : List Scope
  /-- The global scope. -/
  global : Scope
deriving DecidableEq

namespace Chain

/-- The chain of the given global scope alone. -/
def ofGlobal (s : Scope) : Chain := ⟨[], s⟩

/-- All scopes, the innermost first. -/
def scopes (c : Chain) : List Scope := c.inner ++ [c.global]

/-- The value that a name stands for. -/
def find? (c : Chain) (name : String) : Option Value := c.scopes.findSome? (·.find? name)

/-- The scopes with the nearest binding of a name changed, if there is one. -/
def assignIn (name : String) (value : Value) : List Scope → Option (List Scope)
  | [] => none
  | s :: ss =>
    if s.binds name then some (s.define name value :: ss)
    else (assignIn name value ss).map (s :: ·)

/-- Changes the nearest binding of a name, if there is one. -/
def assign? (c : Chain) (name : String) (value : Value) : Option Chain :=
  match assignIn name value c.inner with
  | some ss => some { c with inner := ss }
  | none =>
    if c.global.binds name then some { c with global := c.global.define name value } else none

/-- Binds a name in the innermost scope. -/
def define (c : Chain) (name : String) (value : Value) : Chain :=
  match c.inner with
  | [] => { c with global := c.global.define name value }
  | s :: ss => { c with inner := s.define name value :: ss }

/-- Opens a scope. -/
def enter (c : Chain) : Chain := { c with inner := Scope.empty :: c.inner }

/-- Closes the innermost scope. The global scope stays open. -/
def leave (c : Chain) : Chain := { c with inner := c.inner.tail }

@[simp] theorem leave_enter (c : Chain) : c.enter.leave = c := rfl

end Chain

end LoxScript
