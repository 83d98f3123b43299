import Mathlib.Order.Defs.Unbundled
import LoxScript.Proofs.Scoping.ScopeList
import LoxScript.Scope.Forest

/-!
# Chains within a tree of scopes

In a tree of scopes each scope knows the one around it, and the scopes from a given one outwards form
a chain. `Forest.Shows` relates a scope of the tree to the list of scopes that is found on the way out.
All operations on the tree agree with those on the list. A tree also grows: no scope of it is ever
removed, and none is moved to another place (`Forest.Grows`), so that the way out from a scope always
remains the same.
-/

namespace LoxScript

namespace Forest

/-- From the scope of number `i` outwards, the tree has the given scopes. Each of them was created
later than the one around it. -/
inductive Shows (f : Forest) : Nat → List Scope → Prop where
  | global {i : Nat} {s : Scope} (h : f.nodes[i]? = some ⟨none, s⟩) : Shows f i [s]
  | inner {i p : Nat} {s : Scope} {ss : List Scope} (h : f.nodes[i]? = some ⟨some p, s⟩) (hp : p < i)
      (hss : Shows f p ss) : Shows f i (s :: ss)

/-- Every scope of the first tree is a scope of the second one as well, within the same scope. -/
def Grows (f f' : Forest) : Prop :=
  ∀ (i : Nat) (node : ScopeNode), f.nodes[i]? = some node →
    ∃ node' : ScopeNode, f'.nodes[i]? = some node' ∧ node'.parent = node.parent

instance : IsPreorder Forest Grows where
  refl _ _ node h := ⟨node, h, rfl⟩
  trans f g h hfg hgh i node hi := by
    obtain ⟨node₁, h₁, hp₁⟩ := hfg i node hi
    obtain ⟨node₂, h₂, hp₂⟩ := hgh i node₁ h₁
    exact ⟨node₂, h₂, hp₂.trans hp₁⟩

variable {f f' : Forest} {i j p : Nat} {s : Scope} {ss : List Scope} {x : String} {v : Value}

namespace Shows

theorem ne_nil (h : f.Shows i ss) : ss ≠ [] := by
  cases h <;> simp

theorem lt_length (h : f.Shows i ss) : i < f.nodes.length := by
  cases h with
  | global h => exact (List.getElem?_eq_some_iff.mp h).1
  | inner h _ _ => exact (List.getElem?_eq_some_iff.mp h).1

/-- Only the scopes up to a scope matter to what it shows. -/
theorem congr (h : f.Shows i ss) (hf : ∀ j ≤ i, f'.nodes[j]? = f.nodes[j]?) : f'.Shows i ss := by
  induction h with
  | @global i s h => exact .global ((hf i (Nat.le_refl i)).trans h)
  | @inner i p s ss h hp _ ih =>
    have hss : f'.Shows p ss := ih fun j hj => hf j (by omega)
    exact .inner ((hf i (Nat.le_refl i)).trans h) hp hss

/-- The way out is found with any fuel that is large enough, and remains the same. -/
theorem pathUpTo_eq (h : f.Shows i ss) (hg : f.Grows f') {fuel fuel' : Nat} (hi : i < fuel)
    (hi' : i < fuel') : f'.pathUpTo fuel' i = f.pathUpTo fuel i := by
  induction h generalizing fuel fuel' with
  | @global i s h =>
    obtain ⟨node', h', hp'⟩ := hg i _ h
    obtain ⟨fuel, rfl⟩ : ∃ n, fuel = n + 1 := ⟨fuel - 1, by omega⟩
    obtain ⟨fuel', rfl⟩ : ∃ n, fuel' = n + 1 := ⟨fuel' - 1, by omega⟩
    simp only [pathUpTo, h, h', hp']
  | @inner i p s ss h hp _ ih =>
    obtain ⟨node', h', hp'⟩ := hg i _ h
    obtain ⟨fuel, rfl⟩ : ∃ n, fuel = n + 1 := ⟨fuel - 1, by omega⟩
    obtain ⟨fuel', rfl⟩ : ∃ n, fuel' = n + 1 := ⟨fuel' - 1, by omega⟩
    have hrest : f'.pathUpTo fuel' p = f.pathUpTo fuel p := ih (by omega) (by omega)
    simp only [pathUpTo, h, h', hp', hrest]

/-- The way out does not change while the tree grows. -/
theorem path_eq (h : f.Shows i ss) (hg : f.Grows f') : f'.path i = f.path i := by
  have hi := h.lt_length
  have hi' : i < f'.nodes.length := by
    obtain ⟨node', h', -⟩ := hg i _ (List.getElem?_eq_getElem hi)
    exact (List.getElem?_eq_some_iff.mp h').1
  exact h.pathUpTo_eq hg hi hi'

/-- The way out of the global scope is that scope. -/
theorem path_global (h : f.nodes[i]? = some ⟨none, s⟩) : f.path i = [i] := by
  have hi : i < f.nodes.length := (List.getElem?_eq_some_iff.mp h).1
  obtain ⟨n, hn⟩ : ∃ n, f.nodes.length = n + 1 := ⟨f.nodes.length - 1, by omega⟩
  unfold path
  rw [hn]
  simp only [pathUpTo, h]

/-- The way out of another scope goes on from the one around it. -/
theorem path_inner (h : f.nodes[i]? = some ⟨some p, s⟩) (hp : p < i) (hss : f.Shows p ss) :
    f.path i = i :: f.path p := by
  have hi : i < f.nodes.length := (List.getElem?_eq_some_iff.mp h).1
  obtain ⟨n, hn⟩ : ∃ n, f.nodes.length = n + 1 := ⟨f.nodes.length - 1, by omega⟩
  have hrest : f.pathUpTo n p = f.path p :=
    hss.pathUpTo_eq (refl_of Grows f) hss.lt_length (by omega)
  rw [← hrest, path, hn]
  simp only [pathUpTo, h]

/-- There are as many scopes on the way out as in the list. -/
theorem length_path (h : f.Shows i ss) : (f.path i).length = ss.length := by
  induction h with
  | global h => rw [path_global h]; rfl
  | inner h hp hss ih => rw [path_inner h hp hss, List.length_cons, ih, List.length_cons]

/-! ## Searching -/

theorem bindsAt_eq {parent : Option Nat} (h : f.nodes[i]? = some ⟨parent, s⟩) (x : String) :
    f.bindsAt x i = s.binds x := by
  simp [bindsAt, scope?, h]

/-- The search ends at a scope on the way out or fails, as it does in the list. -/
theorem resolve_global (h : f.nodes[i]? = some ⟨none, s⟩) (x : String) :
    f.resolve? i x = if s.binds x then some i else none := by
  rw [resolve?, path_global h, List.find?_cons, bindsAt_eq h]
  cases s.binds x <;> rfl

/-- A name that a scope does not bind is resolved further out. -/
theorem resolve_inner (h : f.nodes[i]? = some ⟨some p, s⟩) (hp : p < i) (hss : f.Shows p ss)
    (x : String) : f.resolve? i x = if s.binds x then some i else f.resolve? p x := by
  rw [resolve?, path_inner h hp hss, List.find?_cons, bindsAt_eq h]
  cases s.binds x <;> rfl

/-- What a name stands for, where the search goes on behind the first scope as `r` does. -/
theorem find?_of_resolve {parent : Option Nat} {r : Option Nat} (h : f.nodes[i]? = some ⟨parent, s⟩)
    (hr : f.resolve? i x = if s.binds x then some i else r) :
    f.find? i x = (s.find? x).or (r.bind fun j => (f.scope? j).bind (·.find? x)) := by
  have hfind : f.find? i x = (f.resolve? i x).bind fun j => (f.scope? j).bind (·.find? x) := rfl
  rw [hfind, hr]
  cases hv : s.find? x with
  | none => simp [Scope.binds, hv]
  | some v => simp [Scope.binds, hv, scope?, h]

/-- A name stands for the same value in the tree and in the list. -/
theorem find?_eq (h : f.Shows i ss) (x : String) : f.find? i x = ss.findSome? (·.find? x) := by
  induction h with
  | @global i s h =>
    rw [find?_of_resolve h (resolve_global h x), List.findSome?_cons]
    cases s.find? x <;> rfl
  | @inner i p s ss h hp hss ih =>
    rw [find?_of_resolve h (resolve_inner h hp hss x), List.findSome?_cons, ← ih]
    cases s.find? x <;> rfl

end Shows

/-! ## Changing -/

theorem nodes_define (f : Forest) (i : Nat) (x : String) (v : Value) (j : Nat) :
    (f.define i x v).nodes[j]? =
      f.nodes[j]?.map fun n => if i = j then { n with scope := n.scope.define x v } else n := by
  rw [define, List.getElem?_modify]
  split <;> simp

/-- A definition removes no scope, and moves none. -/
theorem grows_define (f : Forest) (i : Nat) (x : String) (v : Value) :
    f.Grows (f.define i x v) := by
  intro j node h
  rw [nodes_define, h]
  refine ⟨_, rfl, ?_⟩
  split <;> rfl

theorem grows_child (f : Forest) (i : Nat) : f.Grows (f.child i) := by
  intro j node h
  have hj := (List.getElem?_eq_some_iff.mp h).1
  refine ⟨node, ?_, rfl⟩
  rw [child, List.getElem?_append_left hj, h]

namespace Shows

/-- A definition in a scope further in is not noticed. -/
theorem define_within (h : f.Shows i ss) (hj : i < j) (x : String) (v : Value) :
    (f.define j x v).Shows i ss := by
  refine h.congr fun k hk => ?_
  have hne : j ≠ k := by omega
  rw [nodes_define]
  simp [hne]

/-- A definition changes the first scope of the list. -/
theorem define (h : f.Shows i (s :: ss)) (x : String) (v : Value) :
    (f.define i x v).Shows i (s.define x v :: ss) := by
  cases h with
  | global h =>
    refine .global ?_
    rw [nodes_define, h]
    simp
  | inner h hp hss =>
    refine .inner ?_ hp (hss.define_within hp x v)
    rw [nodes_define, h]
    simp

/-- The search for a name and the assignment to it end at the same scope. -/
theorem assign_cases (h : f.Shows i ss) (x : String) :
    (f.resolve? i x = none ∧ ∀ v, Chain.assignIn x v ss = none) ∨
      ∃ j ≤ i, f.resolve? i x = some j ∧
        ∀ v, ∃ ss', Chain.assignIn x v ss = some ss' ∧ (f.define j x v).Shows i ss' := by
  have hhere : ∀ {i s ss}, f.Shows i (s :: ss) → s.binds x = true → ∀ v,
      ∃ ss', Chain.assignIn x v (s :: ss) = some ss' ∧ (f.define i x v).Shows i ss' := by
    intro i s ss h hs v
    exact ⟨s.define x v :: ss, by simp [Chain.assignIn, hs], h.define x v⟩
  -- scope by scope outwards, up to the first one that binds the name
  induction h with
  | @global i s h =>
    have hr := resolve_global h x
    by_cases hs : s.binds x = true
    · rw [if_pos hs] at hr
      exact .inr ⟨i, Nat.le_refl i, hr, hhere (.global h) hs⟩
    · rw [if_neg hs] at hr
      exact .inl ⟨hr, fun v => by simp [Chain.assignIn, hs]⟩
  | @inner i p s ss h hp hss ih =>
    have hr := resolve_inner h hp hss x
    by_cases hs : s.binds x = true
    · rw [if_pos hs] at hr
      exact .inr ⟨i, Nat.le_refl i, hr, hhere (.inner h hp hss) hs⟩
    · rw [if_neg hs] at hr
      rcases ih with ⟨hnone, hassign⟩ | ⟨j, hj, hsome, hassign⟩
      · exact .inl ⟨hr.trans hnone, fun v => by simp [Chain.assignIn, hs, hassign v]⟩
      · refine .inr ⟨j, by omega, hr.trans hsome, fun v => ?_⟩
        obtain ⟨ss', hss', hshows⟩ := hassign v
        refine ⟨s :: ss', by simp [Chain.assignIn, hs, hss'], .inner ?_ hp hshows⟩
        have hne : j ≠ i := by omega
        rw [nodes_define, h]
        simp [hne]

/-- A new scope is the first one of its list. -/
theorem child (h : f.Shows i ss) : (f.child i).Shows f.nodes.length (Scope.empty :: ss) := by
  have hi := h.lt_length
  refine .inner ?_ hi (h.congr fun j hj => ?_)
  · simp [Forest.child]
  · rw [Forest.child, List.getElem?_append_left (by omega)]

/-- Behind a scope that lies within scope `i`, the list of scope `i` follows. -/
theorem outwards (h : f.Shows j ss) {node : ScopeNode} (hj : f.nodes[j]? = some node)
    (hp : node.parent = some i) : ∃ s ss', ss = s :: ss' ∧ f.Shows i ss' := by
  cases h with
  | global h =>
    rw [h] at hj
    cases hj
    cases hp
  | inner h _ hss =>
    rw [h] at hj
    cases hj
    cases hp
    exact ⟨_, _, rfl, hss⟩

end Shows

/-- Every list of scopes that is not empty is shown by some tree. -/
theorem exists_shows (hss : ss ≠ []) : ∃ f : Forest, ∃ i, i + 1 = f.nodes.length ∧ f.Shows i ss := by
  induction ss with
  | nil => exact absurd rfl hss
  | cons s ss ih =>
    by_cases hrest : ss = []
    · subst hrest
      exact ⟨⟨[⟨none, s⟩]⟩, 0, rfl, .global rfl⟩
    · obtain ⟨f, i, hi, hshows⟩ := ih hrest
      refine ⟨⟨f.nodes ++ [⟨some i, s⟩]⟩, f.nodes.length, by simp, .inner (p := i) (by simp) (by omega) ?_⟩
      exact hshows.congr fun j hj => List.getElem?_append_left (by omega)

end Forest

end LoxScript
