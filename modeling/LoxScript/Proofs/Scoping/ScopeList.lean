import LoxScript.Scope.Chain

/-!
# A chain as a list of scopes

A chain tells its global scope from the others, so that the global one cannot be closed. For names it
makes no difference: a search and an assignment go through the list of all scopes, and a definition
concerns the first of them. This module says what the operations on a chain do to that list.
-/

namespace LoxScript

/-- A definition binds its own name, and no other one. -/
theorem Scope.binds_define (s : Scope) (x y : String) (v : Value) :
    (s.define y v).binds x = (y == x || s.binds x) := by
  unfold Scope.binds
  rw [Scope.find?_define]
  by_cases h : y = x
  · simp [h]
  · simp [h]

namespace Chain

variable {x : String} {v : Value} {c : Chain} {s : Scope} {ss : List Scope}

/-- The global scope is always there. -/
theorem scopes_ne_nil (c : Chain) : c.scopes ≠ [] := by
  simp [scopes]

theorem scopes_enter (c : Chain) : c.enter.scopes = Scope.empty :: c.scopes := rfl

/-- Closing the innermost scope leaves the others, if there are any. -/
theorem scopes_leave (hc : c.scopes = s :: ss) (hss : ss ≠ []) : c.leave.scopes = ss := by
  obtain ⟨inner, g⟩ := c
  cases inner with
  | nil =>
    simp only [scopes, List.nil_append, List.cons.injEq] at hc
    exact absurd hc.2.symm hss
  | cons s' inner =>
    simp only [scopes, List.cons_append, List.cons.injEq] at hc
    exact hc.2

/-- A definition is made in the innermost scope. -/
theorem scopes_define (hc : c.scopes = s :: ss) : (c.define x v).scopes = s.define x v :: ss := by
  obtain ⟨inner, g⟩ := c
  cases inner with
  | nil =>
    simp only [scopes, List.nil_append, List.cons.injEq] at hc
    obtain ⟨rfl, rfl⟩ := hc
    rfl
  | cons s' inner =>
    simp only [scopes, List.cons_append, List.cons.injEq] at hc
    obtain ⟨rfl, rfl⟩ := hc
    rfl

/-- An assignment goes to the first scopes, if one of them binds the variable, and else to the
others. -/
theorem assignIn_append (own outer : List Scope) :
    assignIn x v (own ++ outer) =
      match assignIn x v own with
      | some ss => some (ss ++ outer)
      | none => (assignIn x v outer).map (own ++ ·) := by
  induction own with
  | nil => simp [assignIn]
  | cons s own ih =>
    rw [List.cons_append]
    by_cases hs : s.binds x = true
    · simp [assignIn, hs]
    · simp only [assignIn, if_neg hs, ih]
      cases assignIn x v own with
      | some ss => rfl
      | none => simp [Option.map_map, Function.comp_def]

/-- In the list, an assignment is the one through all scopes. -/
theorem scopes_assign? (c : Chain) (x : String) (v : Value) :
    (c.assign? x v).map scopes = assignIn x v c.scopes := by
  unfold assign?
  rw [scopes, assignIn_append]
  cases assignIn x v c.inner with
  | some ss => rfl
  | none =>
    dsimp only
    split
    · next hglobal => simp [assignIn, hglobal, scopes]
    · next hglobal => simp [assignIn, hglobal]

/-- An assignment fails only if no scope binds the name. -/
theorem binds_of_assignIn_eq_none (h : assignIn x v ss = none) : ∀ s ∈ ss, s.binds x = false := by
  induction ss with
  | nil => simp
  | cons s ss ih =>
    unfold assignIn at h
    split at h
    · cases h
    · next hs =>
      rw [Option.map_eq_none_iff] at h
      simpa using ⟨eq_false_of_ne_true hs, ih h⟩

end Chain

end LoxScript
