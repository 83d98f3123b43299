import LoxScript.Value

/-!
# Scopes

A scope binds names to values. The names stand in the order of their first definition; a name that
is defined again keeps its place.
-/

namespace LoxScript

/-- A scope. -/
structure Scope where
  /-- The bindings in order. -/
  bindings : List (String × Value)
deriving DecidableEq

namespace Scope

/-- The scope without bindings. -/
def empty : Scope := ⟨[]⟩

/-- Bindings with `name` bound to `value`: in its old place if it is bound already, at the end
otherwise. -/
def put (name : String) (value : Value) : List (String × Value) → List (String × Value)
  | [] => [(name, value)]
  | (x, v) :: bs => if x = name then (x, value) :: bs else (x, v) :: put name value bs

/-- The value that bindings give to a name. -/
def get? (name : String) : List (String × Value) → Option Value
  | [] => none
  | (x, v) :: bs => if x = name then some v else get? name bs

/-- The value that is bound to a name, if any is. -/
def find? (s : Scope) (name : String) : Option Value := get? name s.bindings

/-- Whether a name is bound. -/
def binds (s : Scope) (name : String) : Bool := (s.find? name).isSome

/-- Binds a name, or gives it another value. -/
def define (s : Scope) (name : String) (value : Value) : Scope := ⟨put name value s.bindings⟩

/-- The names in the order of their first definition. -/
def names (s : Scope) : List String := s.bindings.map Prod.fst

/-! ## What a definition changes -/

theorem find?_empty (x : String) : empty.find? x = none := rfl

/-- A binding can be found, and the others are found as before. -/
theorem get?_put (name x : String) (value : Value) (bs : List (String × Value)) :
    get? x (put name value bs) = if name = x then some value else get? x bs := by
  induction bs with
  | nil => simp [put, get?]
  | cons b bs ih => grind [put, get?]

/-- A name that is bound again keeps its place. -/
theorem map_fst_put (name : String) (value : Value) (bs : List (String × Value)) :
    (put name value bs).map Prod.fst =
      if name ∈ bs.map Prod.fst then bs.map Prod.fst else bs.map Prod.fst ++ [name] := by
  induction bs with
  | nil => simp [put]
  | cons b bs ih =>
    obtain ⟨y, v⟩ := b
    by_cases hy : y = name
    · simp [put, hy]
    · have : name ≠ y := fun h => hy h.symm
      simp only [put, hy, if_false, List.map_cons, ih, List.mem_cons, this, false_or]
      split <;> simp

/-- A name that is defined has its new value, and the others keep theirs. -/
theorem find?_define (s : Scope) (name x : String) (value : Value) :
    (s.define name value).find? x = if name = x then some value else s.find? x :=
  get?_put name x value s.bindings

/-- A new name comes last. -/
theorem names_define (s : Scope) (name : String) (value : Value) :
    (s.define name value).names = if name ∈ s.names then s.names else s.names ++ [name] :=
  map_fst_put name value s.bindings

end Scope

end LoxScript
