import LoxScript.Proofs.Run.Session
import LoxScript.Proofs.Scoping.Names

/-!
# The names that a program declares

What a program adds to the scope it runs in can be read off its text: the names of the declarations at
its top, as far as they were carried out and as far as they are new, in order. Declarations in nested
blocks do not count.
-/

namespace LoxScript

namespace Stmt

/-- The name that a statement declares. -/
def declaredName? : Stmt → Option String
  | declare name _ _ => some name.lexeme
  | _ => none

/-- The names that statements declare, in order. Those of nested blocks do not count. -/
def declaredNames (ss : List Stmt) : List String := ss.filterMap declaredName?

/-- The statements that are carried out before the first one that breaks off. -/
def completed (b : Bounds) (room : Nat) : List Stmt → Machine → List Stmt
  | [], _ => []
  | s :: ss, m =>
    match s.exec b room m with
    | .ok _ m₁ => s :: completed b room ss m₁
    | .error _ _ => []

theorem prefix_completed (b : Bounds) (room : Nat) (ss : List Stmt) (m : Machine) :
    completed b room ss m <+: ss := by
  induction ss generalizing m with
  | nil => exact List.prefix_rfl
  | cons s ss ih =>
    unfold completed
    split
    · exact List.cons_prefix_cons.mpr ⟨rfl, ih _⟩
    · exact List.nil_prefix

/-- If nothing breaks off, all statements are carried out. -/
theorem completed_of_ok {b : Bounds} {room : Nat} {ss : List Stmt} {m m' : Machine}
    (h : execAll b room ss m = .ok () m') : completed b room ss m = ss := by
  induction ss generalizing m with
  | nil => rfl
  | cons s ss ih =>
    obtain ⟨u, m₁, h₁, h₂⟩ := bind_eq_ok.mp h
    unfold completed
    rw [h₁]
    dsimp only
    rw [ih h₂]

end Stmt

/-! ## Adding names -/

/-- Those of the names `xs` that are not among `ls`, each of them once. -/
def newNames (ls xs : List String) : List String := (xs.filter (· ∉ ls)).eraseDups

/-- Names are added one by one. -/
theorem append_newNames_cons (ls : List String) (x : String) (xs : List String) :
    ls ++ newNames ls (x :: xs) =
      (if x ∈ ls then ls else ls ++ [x]) ++ newNames (if x ∈ ls then ls else ls ++ [x]) xs := by
  unfold newNames
  by_cases hx : x ∈ ls
  · simp [hx]
  · have hrest : (xs.filter (· ∉ ls)).filter (fun y => !y == x) = xs.filter (· ∉ ls ++ [x]) := by
      rw [List.filter_filter]
      refine List.filter_congr fun y _ => ?_
      by_cases hyx : y = x <;> simp [hyx]
    rw [if_neg hx, List.filter_cons_of_pos (by simpa using hx), List.eraseDups_cons, hrest]
    simp

/-- Behind statements, the innermost block has also those of their names that are new. -/
theorem Layers.foldl_behind (ls : List String) (outer : Layers) (ss : List Stmt) :
    ss.foldl Layers.behind (ls :: outer) = (ls ++ newNames ls (Stmt.declaredNames ss)) :: outer := by
  induction ss generalizing ls with
  | nil => simp [Stmt.declaredNames, newNames]
  | cons s ss ih =>
    rw [List.foldl_cons]
    cases s with
    | declare name first line =>
      have hnames : Stmt.declaredNames (.declare name first line :: ss) =
          name.lexeme :: Stmt.declaredNames ss := rfl
      rw [hnames, append_newNames_cons]
      exact ih _
    | _ => exact ih ls

/-! ## What execution adds -/

theorem names_execAll (b : Bounds) (room : Nat) {ss : List Stmt} (hss : Stmt.PlacedAll ss)
    (m : Machine) :
    (endState (Stmt.execAll b room ss m)).chain.names =
      (Stmt.completed b room ss m).foldl Layers.behind m.chain.names := by
  induction ss generalizing m with
  | nil => rfl
  | cons s ss ih =>
    have hfirst := names_exec b room hss.1 m
    unfold Stmt.completed
    rw [Stmt.execAll_cons]
    cases h : s.exec b room m with
    | ok u m₁ =>
      rw [h] at hfirst
      dsimp only at hfirst ⊢
      rw [bind_of_ok h, ih hss.2 m₁, hfirst, List.foldl_cons]
    | error e m₁ =>
      rw [h] at hfirst
      rw [bind_of_error h]
      exact hfirst

/-! ## What a run adds -/

/-- The statements of a source that a run carries out. -/
def carriedOut (b : Bounds) (source : String) (m : Machine) : List Stmt :=
  if (Program.ofTokens b.nesting (Scan.ofSource source).tokens).panicked then []
  else Stmt.completed b b.room (statementsOf b.nesting source) { m with output := "" }

theorem names_run {b : Bounds} {source : String} {m : Machine} {r : Report}
    (h : run b source m = .ok r) :
    r.machine.chain.names = (carriedOut b source m).foldl Layers.behind m.chain.names := by
  unfold carriedOut
  cases hpanicked : (Program.ofTokens b.nesting (Scan.ofSource source).tokens).panicked with
  | true =>
    have hrun : run b source m = .ok ⟨false, findings b source, { m with output := "" }⟩ :=
      if_pos hpanicked
    rw [hrun] at h
    cases h
    rfl
  | false =>
    have hnames := names_execAll b b.room (placedAll_ofTokens b.nesting (Scan.ofSource source).tokens)
      { m with output := "" }
    rw [if_neg Bool.false_ne_true]
    refine Eq.trans (congrArg Chain.names ?_) hnames
    rcases run_eq_ok hpanicked h with ⟨m', hm', rfl⟩ | ⟨halt, m', d, hm', -, rfl⟩
    · unfold statementsOf at hm'
      rw [hm']
      rfl
    · unfold statementsOf at hm'
      rw [hm']
      rfl

/-- A run at the global scope ends there, and adds the new names of the declarations that it carries
out. -/
theorem global_names_run {b : Bounds} {source : String} {m : Machine} {r : Report}
    (h : run b source m = .ok r) (hm : m.chain.inner = []) :
    r.machine.chain.inner = [] ∧
      r.machine.chain.global.names = m.chain.global.names ++
        newNames m.chain.global.names (Stmt.declaredNames (carriedOut b source m)) := by
  have hnames := names_run h
  have hbefore : m.chain.names = [m.chain.global.names] := by
    simp [Chain.names_eq, Chain.layers, hm]
  rw [hbefore, Layers.foldl_behind, Chain.names_eq] at hnames
  have hlength := congrArg List.length hnames
  have hlayers : r.machine.chain.layers = [] := by
    rw [← List.length_eq_zero_iff]
    simpa using hlength
  rw [hlayers, List.nil_append, List.singleton_inj] at hnames
  exact ⟨List.map_eq_nil_iff.mp hlayers, hnames⟩

end LoxScript
