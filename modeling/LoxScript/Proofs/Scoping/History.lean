import Mathlib.Data.List.Find
import LoxScript.Proofs.Scoping.Names
import LoxScript.Proofs.Scoping.Tree

/-!
# The history of a tree of scopes

A tree of scopes is changed in three ways: a scope is added within another one, a name is bound in a
scope, and a name is given another value from within a scope. This module says what a tree looks like
behind any sequence of such operations (`History`), without looking at the tree. A cell is a name in a
scope. Which scope lies within which can be read off the additions; which cells there are, off the
definitions; and what is in a cell is what was written to it last, where an assignment writes to the
cell of the nearest scope outwards that has defined the name by then.

`scopes_hold_last_writes` says that the tree agrees with its history. One step keeps the agreement
(`Records`), whatever the operation is, and so does a whole history.
-/

namespace LoxScript

/-! ## Histories -/

/-- The operations on a tree of scopes, one after the other. Each of them is on a scope that is there
already; `n` is the number of scopes at the end. -/
inductive History : (n : Nat) → Type where
  /-- There is an empty global scope. -/
  | start : History 1
  /-- An empty scope is added within a scope. -/
  | child {n : Nat} (h : History n) (i : Fin n) : History (n + 1)
  /-- A name is bound in a scope. -/
  | define {n : Nat} (h : History n) (i : Fin n) (x : String) (v : Value) : History n
  /-- A name is given another value from within a scope, if it stands for anything there. -/
  | assign {n : Nat} (h : History n) (i : Fin n) (x : String) (v : Value) : History n

namespace History

/-- The tree of scopes behind a history. An assignment that fails leaves it alone. -/
def forest : {n : Nat} → History n → Forest
  | _, start => .root
  | _, child h i => h.forest.child i
  | _, define h i x v => h.forest.define i x v
  | _, assign h i x v => (h.forest.assign? i x v).getD h.forest

/-- The scopes from `i` out to the global one. -/
def path : {n : Nat} → History n → (i : Nat) → List Nat
  | _, start, i => [i]
  | n + 1, child h p, i => if i = n then n :: h.path p else h.path i
  | _, define h _ _ _, i => h.path i
  | _, assign h _ _ _, i => h.path i

/-- The cells that were defined, in the order of their definitions. -/
def definitions : {n : Nat} → History n → List (Nat × String)
  | _, start => []
  | _, child h _ => h.definitions
  | _, define h i x _ => h.definitions ++ [(i.val, x)]
  | _, assign h _ _ _ => h.definitions

variable {n : Nat}

/-- The nearest scope from `i` outwards that has defined the name. -/
def home? (h : History n) (i : Nat) (x : String) : Option Nat :=
  (h.path i).find? fun j => decide ((j, x) ∈ h.definitions)

/-- The values that were written, each with the cell that it was written to. -/
def writes : {n : Nat} → History n → List ((Nat × String) × Value)
  | _, start => []
  | _, child h _ => h.writes
  | _, define h i x v => h.writes ++ [((i.val, x), v)]
  | _, assign h i x v => h.writes ++ ((h.home? i x).map fun j => ((j, x), v)).toList

/-- The value that was written to a cell last. -/
def last? (h : History n) (j : Nat) (x : String) : Option Value := h.writes.reverse.lookup (j, x)

/-- The names that a scope has defined, in the order of their first definitions. -/
def namesAt (h : History n) (j : Nat) : List String :=
  ((h.definitions.filter fun d => d.1 == j).map Prod.snd).eraseDups

end History

/-! ## Cells of a tree -/

namespace Forest

variable {f f' : Forest} {i j : Nat} {x y : String} {v : Value}

/-- What is in a cell. -/
def cell? (f : Forest) (j : Nat) (x : String) : Option Value := (f.scope? j).bind (·.find? x)

/-- The names in a scope. -/
def namesAt (f : Forest) (j : Nat) : List String := ((f.scope? j).map Scope.names).getD []

/-- A cell has a value exactly if its scope binds the name. -/
theorem isSome_cell? (f : Forest) (j : Nat) (x : String) :
    (f.cell? j x).isSome = f.bindsAt x j := by
  unfold cell? bindsAt
  cases f.scope? j <;> rfl

theorem bindsAt_iff : f.bindsAt x j = true ↔ x ∈ f.namesAt j := by
  unfold bindsAt namesAt
  cases f.scope? j with
  | none => simp
  | some s => exact s.binds_iff x

/-- A name stands for what is in the first cell on the way out. -/
theorem find?_eq_findSome? (f : Forest) (i : Nat) (x : String) :
    f.find? i x = (f.path i).findSome? (f.cell? · x) := by
  have hfind : f.find? i x = ((f.path i).find? (f.bindsAt x)).bind (f.cell? · x) := rfl
  rw [hfind]
  induction f.path i with
  | nil => rfl
  | cons j js ih =>
    have hcell := f.isSome_cell? j x
    rw [List.find?_cons, List.findSome?_cons, ← hcell]
    cases hj : f.cell? j x with
    | none => exact ih
    | some v => exact hj

/-- Only the cells on the way out matter to what a name stands for. -/
theorem find?_congr (hpath : f'.path i = f.path i)
    (hcell : ∀ j ∈ f.path i, f'.cell? j x = f.cell? j x) : f'.find? i x = f.find? i x := by
  rw [find?_eq_findSome?, find?_eq_findSome?, hpath]
  generalize f.path i = js at hcell
  induction js with
  | nil => rfl
  | cons j js ih =>
    obtain ⟨hj, hjs⟩ := List.forall_mem_cons.mp hcell
    rw [List.findSome?_cons, List.findSome?_cons, hj, ih hjs]

/-- Nor does anything else matter to the scope that it leads to. -/
theorem resolve?_congr (hpath : f'.path i = f.path i)
    (hcell : ∀ j ∈ f.path i, f'.cell? j x = f.cell? j x) : f'.resolve? i x = f.resolve? i x := by
  rw [resolve?, resolve?, hpath]
  refine List.find?_congr fun j hj => ?_
  rw [← isSome_cell?, ← isSome_cell?, hcell j hj]

/-- A definition changes one scope. -/
theorem scope?_define (f : Forest) (i : Nat) (x : String) (v : Value) (j : Nat) :
    (f.define i x v).scope? j =
      (f.scope? j).map fun s => if i = j then s.define x v else s := by
  unfold scope?
  rw [nodes_define, Option.map_map, Option.map_map]
  refine congrArg (fun g => Option.map g f.nodes[j]?) (funext fun node => ?_)
  by_cases hij : i = j <;> simp [hij]

theorem exists_scope (hi : i < f.nodes.length) : ∃ s, f.scope? i = some s := by
  rw [scope?, List.getElem?_eq_getElem hi]
  exact ⟨_, rfl⟩

/-- A definition writes to its own cell and to no other. -/
theorem cell?_define (hi : i < f.nodes.length) (x : String) (v : Value) (j : Nat) (y : String) :
    (f.define i x v).cell? j y = if j = i ∧ y = x then some v else f.cell? j y := by
  unfold cell?
  rw [scope?_define]
  by_cases hij : i = j
  · subst hij
    obtain ⟨s, hs⟩ := exists_scope hi
    have hfind := s.find?_define x y v
    by_cases hxy : x = y
    · subst hxy
      simp [hs, hfind]
    · have hyx : y ≠ x := fun h => hxy h.symm
      simp [hs, hfind, hxy, hyx]
  · have hji : j ≠ i := fun h => hij h.symm
    simp [hij, hji]

/-- A definition adds its name to its own scope, at the end, unless the name is there. -/
theorem namesAt_define (hi : i < f.nodes.length) (x : String) (v : Value) (j : Nat) :
    (f.define i x v).namesAt j =
      if j = i ∧ x ∉ f.namesAt j then f.namesAt j ++ [x] else f.namesAt j := by
  unfold namesAt
  rw [scope?_define]
  by_cases hij : i = j
  · subst hij
    obtain ⟨s, hs⟩ := exists_scope hi
    have hnames := s.names_define x v
    by_cases hx : x ∈ s.names <;> simp [hs, hnames, hx]
  · have hji : j ≠ i := fun h => hij h.symm
    simp [hij, hji]

/-- A new scope is empty, and the others are what they were. -/
theorem scope?_child (f : Forest) (i j : Nat) :
    (f.child i).scope? j = if j = f.nodes.length then some Scope.empty else f.scope? j := by
  unfold scope? child
  rw [List.getElem?_append]
  by_cases hlt : j < f.nodes.length
  · rw [if_pos hlt, if_neg (by omega)]
  · by_cases heq : j = f.nodes.length
    · simp [heq]
    · have hnone : [(⟨some i, Scope.empty⟩ : ScopeNode)][j - f.nodes.length]? = none :=
        List.getElem?_eq_none_iff.mpr (by simp; omega)
      have hout : f.nodes[j]? = none := List.getElem?_eq_none_iff.mpr (by omega)
      rw [if_neg hlt, if_neg heq, hnone, hout]

/-- A new scope gets a number that no other one has. -/
theorem scope?_length (f : Forest) : f.scope? f.nodes.length = none := by
  simp [scope?]

/-- A new scope adds no cell. -/
theorem cell?_child (f : Forest) (i j : Nat) (x : String) : (f.child i).cell? j x = f.cell? j x := by
  unfold cell?
  rw [scope?_child]
  split
  · next h =>
    rw [h, scope?_length]
    exact Scope.find?_empty x
  · rfl

/-- A new scope has no names, and the others keep theirs. -/
theorem namesAt_child (f : Forest) (i j : Nat) : (f.child i).namesAt j = f.namesAt j := by
  unfold namesAt
  rw [scope?_child]
  split
  · next h =>
    rw [h, scope?_length]
    rfl
  · rfl

/-- One operation on scope `i` turns the first tree into the second one. -/
inductive Operation (f : Forest) (i : Nat) : Forest → Prop where
  | child : Operation f i (f.child i)
  | define (x : String) (v : Value) : Operation f i (f.define i x v)
  | assign {x : String} {v : Value} {f' : Forest} (h : f.assign? i x v = some f') : Operation f i f'

/-- No operation removes a scope or moves it elsewhere. -/
theorem Operation.grows (h : f.Operation i f') : f.Grows f' := by
  cases h with
  | child => exact grows_child f i
  | define x v => exact grows_define f i x v
  | assign h =>
    obtain ⟨j, -, rfl⟩ := Option.map_eq_some_iff.mp h
    exact grows_define f j _ _

/-- A tree that has grown still shows a list of scopes. -/
theorem Shows.grows {ss : List Scope} (h : f.Shows i ss) (hg : f.Grows f') :
    ∃ ss', f'.Shows i ss' := by
  induction h with
  | @global i s h =>
    obtain ⟨⟨parent, s'⟩, h', hparent⟩ := hg i _ h
    cases hparent
    exact ⟨[s'], .global h'⟩
  | @inner i p s ss h hp hss ih =>
    obtain ⟨⟨parent, s'⟩, h', hparent⟩ := hg i _ h
    cases hparent
    obtain ⟨ss', hss'⟩ := ih
    exact ⟨s' :: ss', .inner h' hp hss'⟩

end Forest

/-! ## The tree agrees with its history -/

namespace History

variable {n : Nat} {h : History n}

/-- The tree has the scopes, the cells and the names that the history tells of. -/
structure Records (h : History n) : Prop where
  size : h.forest.nodes.length = n
  shown : ∀ i < n, ∃ ss, h.forest.Shows i ss
  path : ∀ i < n, h.forest.path i = h.path i
  cell : ∀ j x, h.forest.cell? j x = h.last? j x
  names : ∀ j, h.forest.namesAt j = h.namesAt j

/-- A scope holds the names that were ever defined in it. -/
theorem mem_namesAt {j : Nat} {x : String} : x ∈ h.namesAt j ↔ (j, x) ∈ h.definitions := by
  rw [namesAt, List.mem_eraseDups]
  simp

/-- The last one of some writes and one more. -/
theorem lookup_concat (ws : List ((Nat × String) × Value)) (i : Nat) (x : String) (v : Value)
    (j : Nat) (y : String) :
    (ws ++ [((i, x), v)]).reverse.lookup (j, y) =
      if j = i ∧ y = x then some v else ws.reverse.lookup (j, y) := by
  rw [List.reverse_concat, List.lookup_cons]
  by_cases hcell : j = i ∧ y = x
  · simp [hcell]
  · have hne : ((j, y) == (i, x)) = false := by simpa using hcell
    rw [hne, if_neg hcell]

/-- One more name comes last, unless it was there before. -/
theorem eraseDups_concat (xs : List String) (x : String) :
    (xs ++ [x]).eraseDups = if x ∉ xs.eraseDups then xs.eraseDups ++ [x] else xs.eraseDups := by
  have hone : [x].eraseDups = [x] := by
    rw [List.eraseDups_cons]
    rfl
  rw [List.eraseDups_append, List.cons_removeAll]
  by_cases hx : x ∈ xs <;> simp [hx, hone, List.removeAll]

/-- A name that is defined for the first time comes last. -/
theorem namesAt_define (h : History n) (i : Fin n) (x : String) (v : Value) (j : Nat) :
    (h.define i x v).namesAt j =
      if j = i ∧ x ∉ h.namesAt j then h.namesAt j ++ [x] else h.namesAt j := by
  by_cases hij : i.val = j
  · have hdefinitions : (h.define i x v).definitions.filter (fun d => d.1 == j) =
        (h.definitions.filter fun d => d.1 == j) ++ [(i.val, x)] := by
      rw [definitions, List.filter_append, List.filter_cons_of_pos (by simpa using hij)]
      rfl
    rw [namesAt, hdefinitions, List.map_append, List.map_singleton, eraseDups_concat, ← namesAt]
    simp only [hij, true_and]
  · have hdefinitions : (h.define i x v).definitions.filter (fun d => d.1 == j) =
        h.definitions.filter fun d => d.1 == j := by
      rw [definitions, List.filter_append, List.filter_cons_of_neg (by simpa using hij)]
      exact List.append_nil _
    have hji : ¬ (j = i.val ∧ x ∉ h.namesAt j) := fun hj => hij hj.1.symm
    rw [if_neg hji, namesAt, hdefinitions, namesAt]

namespace Records

theorem lt_length (hr : h.Records) {i : Nat} (hi : i < n) : i < h.forest.nodes.length := by
  rw [hr.size]
  exact hi

/-- A name leads to the same scope in the tree and by its history. -/
theorem resolve?_eq (hr : h.Records) {i : Nat} (hi : i < n) (x : String) :
    h.forest.resolve? i x = h.home? i x := by
  unfold Forest.resolve? home?
  rw [hr.path i hi]
  refine List.find?_congr fun j _ => ?_
  rw [Bool.eq_iff_iff, Forest.bindsAt_iff, hr.names, mem_namesAt, decide_eq_true_iff]

/-- The scope that a name leads to is there, and has the name. -/
theorem of_home? (hr : h.Records) {i j : Nat} {x : String} (hj : h.home? i x = some j) :
    j < n ∧ x ∈ h.forest.namesAt j := by
  have hdefined := List.find?_some hj
  have hnames : x ∈ h.forest.namesAt j := by
    rw [hr.names, mem_namesAt]
    exact of_decide_eq_true hdefined
  refine ⟨?_, hnames⟩
  rcases Nat.lt_or_ge j n with hlt | hge
  · exact hlt
  · have hnone : h.forest.scope? j = none := by
      rw [Forest.scope?, List.getElem?_eq_none_iff.mpr (by rw [hr.size]; exact hge)]
      rfl
    rw [Forest.namesAt, hnone] at hnames
    cases hnames

/-! ## One operation -/

theorem start : History.start.Records where
  size := rfl
  shown i hi := by
    obtain rfl : i = 0 := by omega
    exact ⟨_, .global rfl⟩
  path i hi := by
    obtain rfl : i = 0 := by omega
    rfl
  cell j x := by
    cases j <;> rfl
  names j := by
    cases j <;> rfl

/-- A new scope is recorded with the one around it. -/
theorem child (hr : h.Records) (i : Fin n) : (h.child i).Records where
  size := by
    show (h.forest.nodes ++ [_]).length = n + 1
    rw [List.length_append, hr.size]
    rfl
  shown j hj := by
    rcases Nat.lt_succ_iff_lt_or_eq.mp hj with hlt | rfl
    · obtain ⟨ss, hss⟩ := hr.shown j hlt
      exact hss.grows (Forest.grows_child h.forest i)
    · obtain ⟨ss, hss⟩ := hr.shown i i.isLt
      have hchild := hss.child
      rw [hr.size] at hchild
      exact ⟨_, hchild⟩
  path j hj := by
    rcases Nat.lt_succ_iff_lt_or_eq.mp hj with hlt | rfl
    · obtain ⟨ss, hss⟩ := hr.shown j hlt
      have hsame := hss.path_eq (Forest.grows_child h.forest i)
      have hne : j ≠ n := by omega
      rw [History.forest, History.path, if_neg hne, hsame, hr.path j hlt]
    · obtain ⟨ss, hss⟩ := hr.shown i i.isLt
      have hnode : (h.forest.child i).nodes[j]? = some ⟨some i.val, Scope.empty⟩ := by
        simp [Forest.child, ← hr.size]
      obtain ⟨ss', hss'⟩ := hss.grows (Forest.grows_child h.forest i)
      have hsame := hss.path_eq (Forest.grows_child h.forest i)
      rw [History.forest, History.path, if_pos rfl, Forest.Shows.path_inner hnode i.isLt hss', hsame,
        hr.path i i.isLt]
  cell j x := (h.forest.cell?_child i j x).trans (hr.cell j x)
  names j := (h.forest.namesAt_child i j).trans (hr.names j)

/-- To write to a cell moves no scope. -/
theorem written (hr : h.Records) (j : Nat) (x : String) (v : Value) :
    (h.forest.define j x v).nodes.length = n ∧
      (∀ i < n, ∃ ss, (h.forest.define j x v).Shows i ss) ∧
      ∀ i < n, (h.forest.define j x v).path i = h.path i := by
  have hgrows := Forest.grows_define h.forest j x v
  refine ⟨?_, fun i hi => ?_, fun i hi => ?_⟩
  · rw [Forest.define, List.length_modify, hr.size]
  · obtain ⟨ss, hss⟩ := hr.shown i hi
    exact hss.grows hgrows
  · obtain ⟨ss, hss⟩ := hr.shown i hi
    rw [hss.path_eq hgrows, hr.path i hi]

theorem define (hr : h.Records) (i : Fin n) (x : String) (v : Value) :
    (h.define i x v).Records := by
  obtain ⟨hsize, hshown, hpath⟩ := hr.written i x v
  have hi := hr.lt_length i.isLt
  refine ⟨hsize, hshown, hpath, fun j y => ?_, fun j => ?_⟩
  · show (h.forest.define i x v).cell? j y = _
    rw [last?, writes, lookup_concat, Forest.cell?_define hi, hr.cell]
    rfl
  · show (h.forest.define i x v).namesAt j = _
    rw [Forest.namesAt_define hi, hr.names, namesAt_define]

/-- An assignment is a definition in the scope that the name leads to, if there is one. -/
theorem assign?_eq (hr : h.Records) (i : Fin n) (x : String) (v : Value) :
    h.forest.assign? i x v = (h.home? i x).map fun j => h.forest.define j x v := by
  rw [Forest.assign?, hr.resolve?_eq i.isLt]

/-- An assignment is recorded as the last write to the cell that it reaches, if there is one. -/
theorem assign (hr : h.Records) (i : Fin n) (x : String) (v : Value) :
    (h.assign i x v).Records := by
  have hforest : (h.assign i x v).forest = (h.forest.assign? i x v).getD h.forest := rfl
  have hwrites : (h.assign i x v).writes =
      h.writes ++ ((h.home? i x).map fun j => ((j, x), v)).toList := rfl
  rw [hr.assign?_eq] at hforest
  cases hhome : h.home? i x with
  | none =>
    rw [hhome] at hforest hwrites
    have hsame : (h.assign i x v).forest = h.forest := hforest
    have hnothing : (h.assign i x v).writes = h.writes := hwrites.trans (List.append_nil _)
    exact
      { size := by rw [hsame, hr.size]
        shown := by rw [hsame]; exact hr.shown
        path := by rw [hsame]; exact hr.path
        cell := by
          intro j y
          rw [hsame, hr.cell, last?, last?, hnothing]
        names := by rw [hsame]; exact hr.names }
  | some k =>
    rw [hhome] at hforest hwrites
    have hdefine : (h.assign i x v).forest = h.forest.define k x v := hforest
    have hwrite : (h.assign i x v).writes = h.writes ++ [((k, x), v)] := hwrites
    obtain ⟨hk, hx⟩ := hr.of_home? hhome
    have hlength := hr.lt_length hk
    obtain ⟨hsize, hshown, hpath⟩ := hr.written k x v
    exact
      { size := by rw [hdefine, hsize]
        shown := by rw [hdefine]; exact hshown
        path := by rw [hdefine]; exact hpath
        cell := by
          intro j y
          rw [hdefine, Forest.cell?_define hlength, hr.cell, last?, last?, hwrite, lookup_concat]
        names := by
          intro j
          -- the name is there already
          have hold : ¬ (j = k ∧ x ∉ h.forest.namesAt j) := by
            rintro ⟨rfl, hnew⟩
            exact hnew hx
          rw [hdefine, Forest.namesAt_define hlength, if_neg hold]
          exact hr.names j }

end Records

/-- The tree agrees with its history, however long the history is. -/
theorem records (h : History n) : h.Records := by
  induction h with
  | start => exact .start
  | child h i ih => exact ih.child i
  | define h i x v ih => exact ih.define i x v
  | assign h i x v ih => exact ih.assign i x v

/-! ## What a history says of its tree -/

theorem mem_path_self (h : History n) (i : Nat) : i ∈ h.path i := by
  induction h with
  | start => exact List.mem_singleton.mpr rfl
  | @child n h p ih =>
    by_cases hi : i = n
    · simp [path, hi]
    · simpa [path, hi] using ih
  | define h j x v ih => exact ih
  | assign h j x v ih => exact ih

/-- The tree of scopes is what the history says. -/
structure Explains (h : History n) (f : Forest) : Prop where
  /-- The scopes lie within each other as they were added. -/
  path : ∀ i : Fin n, f.path i = h.path i
  /-- A name stands for what was written last to the cell of the nearest scope outwards that has
  defined the name. -/
  find? : ∀ (i : Fin n) (x : String), f.find? i x = (h.home? i x).bind fun j => h.last? j x
  /-- A name stands for nothing exactly if no scope outwards has defined it. -/
  find?_eq_none : ∀ (i : Fin n) (x : String),
    f.find? i x = none ↔ ∀ j ∈ h.path i, (j, x) ∉ h.definitions
  contains : ∀ (i : Fin n) (x : String), f.contains i x = (f.find? i x).isSome
  /-- An assignment writes to the cell that the name leads to, and to no other. -/
  assign? : ∀ (i : Fin n) (x : String) (v : Value) (j : Nat), h.home? i x = some j →
    ∃ f' : Forest, f.assign? i x v = some f' ∧ (h.assign i x v).forest = f' ∧
      ∀ k y, f'.cell? k y = if k = j ∧ y = x then some v else f.cell? k y
  /-- It fails exactly if the name stands for nothing, and then all scopes are what they were. -/
  assign?_eq_none : ∀ (i : Fin n) (x : String) (v : Value),
    (f.assign? i x v = none ↔ f.find? i x = none) ∧
      (f.assign? i x v = none → (h.assign i x v).forest = f)
  /-- An operation on one scope changes what a name stands for in another scope, or the scope that it
  leads to from there, only by what it writes to a cell of a scope that both of them lie within. -/
  apart : ∀ (i k : Fin n) (f' : Forest) (y : String), f.Operation i f' →
    ¬ (f'.find? k y = f.find? k y ∧ f'.resolve? k y = f.resolve? k y) →
      ∃ j ∈ h.path i, j ∈ h.path k ∧ f'.cell? j y ≠ f.cell? j y
  /-- The names of a scope stand in the order of their first definitions there. -/
  names : ∀ j : Fin n, (f.scope? j).map Scope.names = some (h.namesAt j)

namespace Records

theorem cell?_eq_none (hr : h.Records) (j : Nat) (x : String) :
    h.forest.cell? j x = none ↔ (j, x) ∉ h.definitions := by
  rw [← mem_namesAt, ← hr.names, ← Forest.bindsAt_iff, ← Forest.isSome_cell?]
  simp

/-- A name stands for what was written last to the cell of the nearest scope that defines it. -/
theorem find?_eq (hr : h.Records) (i : Fin n) (x : String) :
    h.forest.find? i x = (h.home? i x).bind fun j => h.last? j x := by
  have hfind : h.forest.find? i x = (h.forest.resolve? i x).bind (h.forest.cell? · x) := rfl
  rw [hfind, hr.resolve?_eq i.isLt]
  exact congrArg (Option.bind _) (funext fun j => hr.cell j x)

/-- It stands for nothing if no scope on the way out defines it. -/
theorem find?_eq_none (hr : h.Records) (i : Fin n) (x : String) :
    h.forest.find? i x = none ↔ ∀ j ∈ h.path i, (j, x) ∉ h.definitions := by
  rw [Forest.find?_eq_findSome?, List.findSome?_eq_none_iff, hr.path i i.isLt]
  exact forall₂_congr fun j _ => hr.cell?_eq_none j x

theorem home?_eq_none (hr : h.Records) (i : Fin n) (x : String) :
    h.home? i x = none ↔ h.forest.find? i x = none := by
  rw [hr.find?_eq_none, home?, List.find?_eq_none]
  simp

theorem contains_eq (hr : h.Records) (i : Fin n) (x : String) :
    h.forest.contains i x = (h.forest.find? i x).isSome := by
  have hnone := hr.home?_eq_none i x
  rw [Forest.contains, hr.resolve?_eq i.isLt, Bool.eq_iff_iff, Option.isSome_iff_ne_none,
    Option.isSome_iff_ne_none, ne_eq, hnone]

/-- An operation on one scope changes what a name stands for from another one only by a cell on the way
out from both. -/
theorem apart (hr : h.Records) (i k : Fin n) {f' : Forest} {y : String}
    (hop : h.forest.Operation i f')
    (hchange : ¬ (f'.find? k y = h.forest.find? k y ∧ f'.resolve? k y = h.forest.resolve? k y)) :
    ∃ j ∈ h.path i, j ∈ h.path k ∧ f'.cell? j y ≠ h.forest.cell? j y := by
  have hpath : f'.path k = h.forest.path k := by
    obtain ⟨ss, hss⟩ := hr.shown k k.isLt
    exact hss.path_eq hop.grows
  -- only cells of scopes that scope `i` lies within are written to
  have hwithin : ∀ j, f'.cell? j y ≠ h.forest.cell? j y → j ∈ h.path i := by
    intro j hj
    have hdefine : ∀ t x v, t < n → (h.forest.define t x v).cell? j y ≠ h.forest.cell? j y → j = t := by
      intro t x v ht hne
      by_contra hjt
      have hother : ¬ (j = t ∧ y = x) := fun h => hjt h.1
      rw [Forest.cell?_define (hr.lt_length ht), if_neg hother] at hne
      exact hne rfl
    cases hop with
    | child => exact absurd (h.forest.cell?_child i j y) hj
    | define x v =>
      rw [hdefine i x v i.isLt hj]
      exact h.mem_path_self i
    | @assign x v f' hassign =>
      rw [hr.assign?_eq] at hassign
      obtain ⟨t, ht, rfl⟩ := Option.map_eq_some_iff.mp hassign
      rw [hdefine t x v (hr.of_home? ht).1 hj]
      exact List.mem_of_find?_eq_some ht
  by_contra hnone
  have hcells : ∀ j ∈ h.forest.path k, f'.cell? j y = h.forest.cell? j y := by
    intro j hj
    by_contra hcell
    rw [hr.path k k.isLt] at hj
    exact hnone ⟨j, hwithin j hcell, hj, hcell⟩
  exact hchange ⟨Forest.find?_congr hpath hcells, Forest.resolve?_congr hpath hcells⟩

/-- The names of a scope are in the order of their first definitions. -/
theorem names_eq (hr : h.Records) (j : Fin n) :
    (h.forest.scope? j).map Scope.names = some (h.namesAt j) := by
  obtain ⟨s, hs⟩ := Forest.exists_scope (hr.lt_length j.isLt)
  have hnames := hr.names j
  rw [Forest.namesAt, hs] at hnames
  rw [hs]
  exact congrArg some hnames

end Records

end History

/-- A tree of scopes holds what was written last, whatever was done to it before: behind any sequence of
additions, definitions and assignments, a name stands for the value written last to the cell of the
nearest scope outwards that has defined it, and for nothing if there is no such scope; an assignment
writes to this cell only, or fails and changes nothing; scopes have an effect on each other only through
the cells of scopes around both; and the names of a scope keep the order of their first definitions. -/
theorem scopes_hold_last_writes {n : Nat} (h : History n) : h.Explains h.forest := by
  have hr := h.records
  refine ⟨fun i => hr.path i i.isLt, hr.find?_eq, hr.find?_eq_none, hr.contains_eq,
    fun i x v j hj => ?_, fun i x v => ⟨?_, fun hfail => ?_⟩, fun i k f' y => hr.apart i k, hr.names_eq⟩
  · have hassign := hr.assign?_eq i x v
    have hlength := hr.lt_length (hr.of_home? hj).1
    rw [hj, Option.map_some] at hassign
    refine ⟨_, hassign, ?_, fun k y => Forest.cell?_define hlength x v k y⟩
    rw [History.forest, hassign, Option.getD_some]
  · rw [hr.assign?_eq, Option.map_eq_none_iff, hr.home?_eq_none]
  · rw [History.forest, hfail, Option.getD_none]

/-- A name is given another value from the innermost scope, before and behind its definition in the scope
in between. -/
def redirected : History 3 :=
  (((((History.start.define 0 "a" .nil).child 0).child 1).assign 2 "a" (.bool true)).define 1 "a"
    (.bool false)).assign 2 "a" .nil

example : redirected.writes =
    [((0, "a"), .nil), ((0, "a"), .bool true), ((1, "a"), .bool false), ((1, "a"), .nil)] := by
  decide

end LoxScript
