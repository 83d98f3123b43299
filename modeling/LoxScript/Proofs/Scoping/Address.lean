import LoxScript.Machine.Execute

/-!
# Addresses of variables

Where a name is bound can be read off the program text. In front of every statement, each block
around it has declared some names: those of its `var` statements that stand before. The innermost
block that has declared a name holds its binding, and if none has, the name is global. `Expr.bound`
and `Stmt.bound` write this `Address` beside every occurrence of a variable, once and for all.

`BoundStmt.exec` executes a program with addresses. How an occurrence is looked up is left open: an
`Access` says what reading and writing at an address means. Two of them matter. `Access.direct` goes
to the addressed scope and looks nowhere else. `Access.watched` searches the scopes from the inside
out, as programs without addresses do, and raises an alarm when the search does not end at the
address.
-/

namespace LoxScript

/-- Where the binding of a name is. -/
inductive Address where
  /-- So many scopes outwards from the innermost one. -/
  | hops (n : Nat)
  | global
deriving DecidableEq, Repr

/-- The names that the blocks around a place have declared before it, the innermost block first. The
global scope is not among the blocks. -/
abbrev Layers := List (List String)

namespace Layers

/-- The address of a name: the innermost block that has declared it, or else the global scope. -/
def address (ls : Layers) (x : String) : Address :=
  match ls.findIdx? (x ∈ ·) with
  | some n => .hops n
  | none => .global

/-- The layers after the innermost block has declared a name. -/
def declare (x : String) : Layers → Layers
  | [] => []
  | l :: ls => (if x ∈ l then l else l ++ [x]) :: ls

/-- The layers behind a statement: only a variable declaration declares a name. -/
def behind (ls : Layers) : Stmt → Layers
  | .declare name _ _ => ls.declare name.lexeme
  | _ => ls

end Layers

/-! ## Programs with addresses -/

/-- An expression in which every occurrence of a variable has its address. -/
inductive BoundExpr where
  | literal (value : Value)
  | unary (op : Token) (operand : BoundExpr)
  | binary (left : BoundExpr) (op : Token) (right : BoundExpr)
  | logical (left : BoundExpr) (op : Token) (right : BoundExpr)
  | grouping (inner : BoundExpr)
  -- the nodes that have an address
  | read (name : Token) (address : Address)
  | assign (name : Token) (address : Address) (value : BoundExpr)
  | malformed

/-- A statement in which every occurrence of a variable has its address. -/
inductive BoundStmt where
  | expression (value : BoundExpr) (line : Int)
  | print (value : BoundExpr) (line : Int)
  | declare (name : Token) (first : Option BoundExpr) (line : Int)
  | block (body : List BoundStmt) (line : Int)
  | ifThen (condition : BoundExpr) (body : BoundStmt) (line : Int)
  | ifElse (condition : BoundExpr) (body other : BoundStmt) (line : Int)
  | loop (condition : BoundExpr) (body : BoundStmt) (line : Int)
  | malformed (kind : String) (line : Int)

/-- The expression with the addresses that its variables have behind the given declarations. -/
def Expr.bound (ls : Layers) : Expr → BoundExpr
  | literal v _ => .literal v
  | unary op e _ => .unary op (e.bound ls)
  | binary l op r _ => .binary (l.bound ls) op (r.bound ls)
  | logical l op r _ => .logical (l.bound ls) op (r.bound ls)
  | grouping e _ => .grouping (e.bound ls)
  | read name _ => .read name (ls.address name.lexeme)
  | assign name e _ => .assign name (ls.address name.lexeme) (e.bound ls)
  | malformed _ _ => .malformed

namespace Stmt

mutual

/-- The statement with the addresses that its variables have behind the given declarations. The
first value of a variable does not see the variable: its declaration is not complete yet. -/
def bound (ls : Layers) : Stmt → BoundStmt
  | expression e line => .expression (e.bound ls) line
  | print e line => .print (e.bound ls) line
  | declare name none line => .declare name none line
  | declare name (some e) line => .declare name (some (e.bound ls)) line
  | block body line => .block (boundAll ([] :: ls) body) line
  | ifThen c s line => .ifThen (c.bound ls) (s.bound ls) line
  | ifElse c s t line => .ifElse (c.bound ls) (s.bound ls) (t.bound ls) line
  | loop c s line => .loop (c.bound ls) (s.bound ls) line
  | malformed kind line => .malformed kind line

/-- The statements with their addresses. Each of them stands behind the declarations before it. -/
def boundAll (ls : Layers) : List Stmt → List BoundStmt
  | [] => []
  | s :: ss => s.bound ls :: boundAll (ls.behind s) ss

end

end Stmt

/-! ## Executing them -/

/-- What reading and writing a variable at an address means. -/
structure Access where
  read : Token → Address → Eval Value
  write : Token → Address → Value → Eval Unit

/-- The value of an expression with addresses. Variables are read and written at their addresses;
all else is as in the evaluation by names. -/
def BoundExpr.eval (access : Access) (trap : String → Bool) : (room : Nat) → BoundExpr → Eval Value
  | 0, _ => throw .overflow
  | _ + 1, literal v => return v
  | room + 1, grouping e => e.eval access trap room
  | _ + 1, read name a => if trap name.lexeme then throw .overflow else access.read name a
  | room + 1, assign name a e => do
    let v ← e.eval access trap room
    access.write name a v
    return v
  | room + 1, logical l op r => do
    let v ← l.eval access trap room
    if v.truthy = (op.kind == .orWord) then return v
    else r.eval access trap room
  | room + 1, unary op e => do
    let v ← e.eval access trap room
    Eval.ofExcept (v.unary op)
  | room + 1, binary l op r => do
    let v ← l.eval access trap room
    let w ← r.eval access trap room
    Eval.ofExcept (Value.binary op v w)
  | _ + 1, malformed => throw .invalidExpression

/-- The value of an expression with addresses, in an execution. -/
def BoundExpr.value (access : Access) (b : Bounds) (room : Nat) (e : BoundExpr) : Exec Value :=
  Exec.ofEval (e.eval access b.trap room)

/-- Whether the value of an expression with addresses counts as true. -/
def BoundExpr.holds (access : Access) (b : Bounds) (room : Nat) (e : BoundExpr) : Exec Bool := do
  let v ← e.value access b room
  return v.truthy

namespace BoundStmt

mutual

/-- Executes a statement with addresses. -/
def exec (access : Access) (b : Bounds) : (room : Nat) → BoundStmt → Exec Unit
  | 0, _ => throw .overflow
  | room + 1, expression e line => do
    Exec.start line
    let _ ← e.value access b room
  | room + 1, print e line => do
    Exec.start line
    let v ← e.value access b room
    Exec.print v
  | _ + 1, declare name none line => do
    Exec.start line
    Exec.define name.lexeme .nil
  | room + 1, declare name (some e) line => do
    Exec.start line
    let v ← e.value access b room
    Exec.define name.lexeme v
  | room + 1, block body line => do
    Exec.start line
    Exec.inScope (execAll access b room body)
  | room + 1, ifThen c s line => do
    Exec.start line
    if ← c.holds access b room then s.exec access b room
  | room + 1, ifElse c s t line => do
    Exec.start line
    if ← c.holds access b room then s.exec access b room else t.exec access b room
  | room + 1, loop c s line => do
    Exec.start line
    Exec.repeatWhile (c.holds access b room) (s.exec access b room) b.turns
  | _ + 1, malformed kind line => do
    Exec.start line
    throw (.unknownStatement kind line)

/-- Executes statements with addresses in order, up to the first that breaks off. -/
def execAll (access : Access) (b : Bounds) : (room : Nat) → List BoundStmt → Exec Unit
  | _, [] => return ()
  | room, s :: ss => do
    s.exec access b room
    execAll access b room ss

end

end BoundStmt

/-! ## Two ways of access -/

namespace Chain

/-- The scope at an address: so many scopes outwards, or the global one. -/
def scopeAt? (c : Chain) : Address → Option Scope
  | .hops n => c.inner[n]?
  | .global => some c.global

/-- The value of a name in the scope at an address. -/
def findAt? (c : Chain) (a : Address) (x : String) : Option Value :=
  (c.scopeAt? a).bind (·.find? x)

/-- The chain with a name bound in the scope at an address. -/
def defineAt (c : Chain) (x : String) (v : Value) : Address → Chain
  | .hops n => { c with inner := c.inner.modify n (·.define x v) }
  | .global => { c with global := c.global.define x v }

/-- The address at which the search for a name ends: the nearest scope that binds it, or the global
scope, which is searched last. -/
def nearest (c : Chain) (x : String) : Address :=
  match c.inner.findIdx? (·.binds x) with
  | some n => .hops n
  | none => .global

end Chain

namespace Access

/-- Goes to the addressed scope without any search. -/
def direct : Access where
  read name a := fun c =>
    match c.findAt? a name.lexeme with
    | some v => .ok v c
    | none => .error (.error ⟨name, .undefinedVariable⟩) c
  write name a v := fun c =>
    if (c.findAt? a name.lexeme).isSome then .ok () (c.defineAt name.lexeme v a)
    else .error (.error ⟨name, .undefinedVariable⟩) c

/-- Searches the scopes, and breaks off with `alarm` when the search does not end at the address. -/
def watched (alarm : Halt) : Access where
  read name a := fun c =>
    if c.nearest name.lexeme = a then Eval.read (fun _ => false) name c else .error alarm c
  write name a v := fun c =>
    if c.nearest name.lexeme = a then Eval.assign name v c else .error alarm c

end Access

end LoxScript
