import Mathlib.Data.List.Basic

/-!
# Flags beside reports

Each phase of a run hands its errors over to be reported, and sets a flag wherever it does so. Nothing
computes the flag from the reports: these are two updates at each of these places, and either of them
could be missing. So it has to be shown that the flag tells whether anything was reported (`Tells`).
The lemmas below are what such a proof is made of: how a phase starts, what one report does, and what
becomes of the flags of two phases in a row.
-/

namespace LoxScript

variable {α β : Type} {before after later added : List α} {flag flag' : Bool}

/-- What was reported `before` has grown to what was reported `after`, and the flag is set exactly if
anything was added. -/
def Tells (before after : List α) (flag : Bool) : Prop :=
  ∃ added, after = before ++ added ∧ (flag = true ↔ added ≠ [])

namespace Tells

/-- A phase starts with a flag that is not set. -/
theorem start (before : List α) : Tells before before false :=
  ⟨[], (List.append_nil before).symm, by simp⟩

/-- Where a report is added, the flag has to be set. -/
theorem add (h : Tells before after flag) (x : α) : Tells before (after ++ [x]) true := by
  obtain ⟨added, rfl, -⟩ := h
  exact ⟨added ++ [x], List.append_assoc .., by simp⟩

/-- One of the flags of two phases in a row is set exactly if one of the phases reports anything. -/
theorem trans (h : Tells before after flag) (h' : Tells after later flag') :
    Tells before later (flag || flag') := by
  obtain ⟨added, rfl, hflag⟩ := h
  obtain ⟨added', rfl, hflag'⟩ := h'
  refine ⟨added ++ added', List.append_assoc .., ?_⟩
  rw [Bool.or_eq_true, hflag, hflag', ← not_and_or, ← List.append_eq_nil_iff]

/-- The reports of a phase can be worded and put behind earlier ones. -/
theorem map (h : Tells [] after flag) (f : α → β) (sink : List β) :
    Tells sink (sink ++ after.map f) flag := by
  obtain ⟨added, hadded, hflag⟩ := h
  refine ⟨added.map f, by rw [hadded, List.nil_append], ?_⟩
  rw [hflag, ne_eq, ne_eq, List.map_eq_nil_iff]

/-- The flag is the one that could have been computed from the reports. -/
theorem flag_eq (h : Tells before after flag) (hafter : after = before ++ added) :
    flag = !added.isEmpty := by
  obtain ⟨added', hadded, hflag⟩ := h
  obtain rfl : added' = added := List.append_cancel_left (hadded.symm.trans hafter)
  rw [Bool.eq_iff_iff, hflag, Bool.not_eq_true', List.isEmpty_eq_false_iff]

end Tells

end LoxScript
