import LoxScript.Proofs.Scoping.Declared
import LoxScript.Proofs.Scoping.Linked

/-!
# Back in the same scope

However the execution of statements ends, the scope in which it began is current again, and the scopes
around it are the same. This holds for all trees, also for those that the grammar never builds, and for
all ways to end: to the end of the statements, by an error of the program, by a node that means
nothing, by an exhausted stack, and for want of turns. So every run of a session begins at the global
scope, and finds nothing there but what was declared at the top of an earlier source
(`scope_is_restored`).
-/

namespace LoxScript

/-- Every machine is shown by a machine whose scopes lie in a tree. -/
theorem TreeMachine.exists_shows (m : Machine) : ∃ t : TreeMachine, t.Shows m := by
  obtain ⟨f, i, -, h⟩ := Forest.exists_shows m.chain.scopes_ne_nil
  exact ⟨⟨⟨f, i⟩, m.line, m.output⟩, h, rfl, rfl⟩

/-- A tree shows as many scopes as there are on the way out. -/
theorem TreeMachine.Shows.length_path {m : Machine} {t : TreeMachine} (h : t.Shows m) :
    (t.site.forest.path t.site.current).length = m.chain.inner.length + 1 := by
  have hlength := Forest.Shows.length_path h.site
  rw [hlength]
  simp [Chain.scopes]

section

variable {b : Bounds} {room : Nat} {ss : List Stmt} {m : Machine} {t : TreeMachine}

/-- The way out from the current scope is the same behind statements. -/
theorem path_execTreeAll (h : t.Shows m) :
    (endState (Stmt.execTreeAll b room ss t)).site.forest.path t.site.current =
      t.site.forest.path t.site.current := by
  obtain ⟨-, hgrows⟩ := within_execAll b room ss t
  exact Forest.Shows.path_eq h.site hgrows

/-- The chain has as many scopes behind statements as before. -/
theorem length_inner_execAll (b : Bounds) (room : Nat) (ss : List Stmt) (m : Machine) :
    (endState (Stmt.execAll b room ss m)).chain.inner.length = m.chain.inner.length := by
  obtain ⟨t, ht⟩ := TreeMachine.exists_shows m
  have hend := (simulates_execAll b room ss m t ht).endState
  have hcurrent := (within_execAll b room ss t).1
  have hlength := hend.length_path
  rw [hcurrent, path_execTreeAll ht, ht.length_path] at hlength
  omega

end

/-! ## Sessions -/

/-- The names that the sources of a session declare at their tops. -/
def sessionNames (nesting : Nat) (sources : List String) : List String :=
  sources.flatMap fun source => Stmt.declaredNames (statementsOf nesting source)

theorem mem_of_mem_newNames {ls xs : List String} {x : String} (h : x ∈ newNames ls xs) :
    x ∈ xs := by
  unfold newNames at h
  rw [List.mem_eraseDups] at h
  exact (List.mem_filter.mp h).1

theorem prefix_carriedOut (b : Bounds) (source : String) (m : Machine) :
    carriedOut b source m <+: statementsOf b.nesting source := by
  unfold carriedOut
  split
  · exact List.nil_prefix
  · exact Stmt.prefix_completed b b.room _ _

/-- What a run binds was bound before, or is declared at the top of its source. -/
theorem mem_names_run {b : Bounds} {source : String} {m : Machine} {r : Report}
    (h : run b source m = .ok r) (hm : m.chain.inner = []) {x : String}
    (hx : x ∈ r.machine.chain.global.names) :
    x ∈ m.chain.global.names ∨ x ∈ Stmt.declaredNames (statementsOf b.nesting source) := by
  obtain ⟨-, hnames⟩ := global_names_run h hm
  rw [hnames] at hx
  rcases List.mem_append.mp hx with hold | hnew
  · exact .inl hold
  · have hdeclared := mem_of_mem_newNames hnew
    obtain ⟨s, hs, hname⟩ := List.mem_filterMap.mp hdeclared
    exact .inr (List.mem_filterMap.mpr ⟨s, (prefix_carriedOut b source m).subset hs, hname⟩)

/-- Each run of a session ends at the global scope, and what is bound there was bound before the
session or is declared at the top of a source so far. -/
theorem session_at_global {b : Bounds} {sources : List String} {m : Machine}
    {reports : List Report} (h : runAll b sources m = .ok reports) (hm : m.chain.inner = []) :
    ∀ i r, reports[i]? = some r →
      r.machine.chain.inner = [] ∧
        ∀ x ∈ r.machine.chain.global.names,
          x ∈ m.chain.global.names ∨ x ∈ sessionNames b.nesting (sources.take (i + 1)) := by
  induction sources generalizing m reports with
  | nil =>
    intro i r hr
    cases h
    cases hr
  | cons source sources ih =>
    have hrun : (do
        let report ← run b source m
        let later ← runAll b sources report.machine
        return report :: later) = Except.ok reports := h
    cases h₁ : run b source m with
    | error halt =>
      rw [h₁] at hrun
      cases hrun
    | ok r₁ =>
      rw [h₁] at hrun
      cases h₂ : runAll b sources r₁.machine with
      | error halt =>
        change (runAll b sources r₁.machine >>= _) = _ at hrun
        rw [h₂] at hrun
        cases hrun
      | ok later =>
        change (runAll b sources r₁.machine >>= _) = _ at hrun
        rw [h₂] at hrun
        cases hrun
        -- the next run starts at the global scope again, which carries the induction
        have hfirst := (global_names_run h₁ hm).1
        intro i r hr
        cases i with
        | zero =>
          cases hr
          refine ⟨hfirst, fun x hx => ?_⟩
          simpa [sessionNames] using mem_names_run h₁ hm hx
        | succ i =>
          obtain ⟨hinner, hnames⟩ := ih h₂ hfirst i r hr
          refine ⟨hinner, fun x hx => ?_⟩
          rw [List.take_succ_cons, sessionNames, List.flatMap_cons, List.mem_append]
          -- a name was there before this run, or this run declared it, or a later one did
          rcases hnames x hx with hold | hlater
          · rcases mem_names_run h₁ hm hold with hbefore | hdeclared
            · exact .inl hbefore
            · exact .inr (.inl hdeclared)
          · exact .inr (.inr hlater)

/-- At the global scope a name is visible only if the global scope has it. -/
theorem Chain.find?_of_global {c : Chain} (hc : c.inner = []) {x : String}
    (hx : x ∉ c.global.names) : c.find? x = none := by
  have hbinds : c.global.binds x = false := by
    rw [← Bool.not_eq_true, Scope.binds_iff]
    exact hx
  have hnone : c.global.find? x = none := by simpa [Scope.binds] using hbinds
  simp [find?, scopes, hc, hnone]

/-- However the execution of any statements ends, it ends in the very scope in which it began, and the
way out from that scope leads through the same scopes. To see this the scopes are put into a tree, where
execution does the same as in the chain; every chain can be put into a tree. So each run of a session
ends at the global scope, whatever came of it and of those before, and a name that was not bound before
the session is not visible unless one of the sources so far declares it at its top. -/
theorem scope_is_restored :
    (∀ (b : Bounds) (room : Nat) (ss : List Stmt) (m : Machine) (t : TreeMachine), t.Shows m →
      Alike TreeMachine.Shows (Stmt.execAll b room ss m) (Stmt.execTreeAll b room ss t) ∧
        (endState (Stmt.execTreeAll b room ss t)).site.current = t.site.current ∧
        (endState (Stmt.execTreeAll b room ss t)).site.forest.path t.site.current =
          t.site.forest.path t.site.current) ∧
    (∀ m : Machine, ∃ t : TreeMachine, t.Shows m) ∧
    (∀ (b : Bounds) (room : Nat) (ss : List Stmt) (m : Machine),
      (endState (Stmt.execAll b room ss m)).chain.inner.length = m.chain.inner.length) ∧
    ∀ (b : Bounds) (sources : List String) (m : Machine) (reports : List Report),
      runAll b sources m = .ok reports → m.chain.inner = [] →
        ∀ i r, reports[i]? = some r →
          r.machine.chain.inner = [] ∧
            ∀ x, x ∉ m.chain.global.names → x ∉ sessionNames b.nesting (sources.take (i + 1)) →
              r.machine.chain.find? x = none := by
  refine ⟨fun b room ss m t h => ⟨simulates_execAll b room ss m t h, ?_, ?_⟩,
    TreeMachine.exists_shows, length_inner_execAll, ?_⟩
  · exact (within_execAll b room ss t).1
  · exact path_execTreeAll h
  · intro b sources m reports h hm i r hr
    obtain ⟨hinner, hnames⟩ := session_at_global h hm i r hr
    refine ⟨hinner, fun x hbefore hdeclared => Chain.find?_of_global hinner fun hx => ?_⟩
    rcases hnames x hx with hold | hnew
    · exact hbefore hold
    · exact hdeclared hnew

/-- A block that binds a name and is then broken off. -/
def brokenBlock : String := "{ var a = true; b; }"

/-- The machine of an empty global scope, which is the only scope of a tree. -/
def TreeMachine.fresh : TreeMachine := ⟨⟨Forest.root, 0⟩, 1, ""⟩

theorem brokenBlock_is_left :
    (endState (Stmt.execTreeAll {} 1000 (statementsOf 1000 brokenBlock) TreeMachine.fresh)).site.current =
        0 ∧
      ∃ reports, runAll {} [brokenBlock, "print a;"] Machine.fresh = .ok reports ∧
        reports.map (·.diagnostics.map Diagnostic.message) =
          [["Undefined variable 'b'."], ["Undefined variable 'a'."]] ∧
        ∀ (i : Nat) (r : Report), reports[i]? = some r →
          r.machine.chain.inner = [] ∧ r.machine.chain.find? "a" = none := by
  have hshows : TreeMachine.fresh.Shows Machine.fresh := ⟨.global rfl, rfl, rfl⟩
  obtain ⟨hexecution, -, -, hsession⟩ := scope_is_restored
  refine ⟨(hexecution {} 1000 (statementsOf 1000 brokenBlock) _ _ hshows).2.1, ?_⟩
  have hmessages : (runAll {} [brokenBlock, "print a;"] Machine.fresh).toOption.map
      (·.map (·.diagnostics.map Diagnostic.message)) =
        some [["Undefined variable 'b'."], ["Undefined variable 'a'."]] := by decide +kernel
  cases hreports : runAll {} [brokenBlock, "print a;"] Machine.fresh with
  | error halt =>
    rw [hreports] at hmessages
    cases hmessages
  | ok reports =>
    rw [hreports] at hmessages
    refine ⟨reports, rfl, Option.some.inj hmessages, fun i r hr => ?_⟩
    obtain ⟨hinner, hnames⟩ := hsession {} _ Machine.fresh reports hreports rfl i r hr
    have hdeclared : sessionNames 1000 [brokenBlock, "print a;"] = [] := by decide +kernel
    refine ⟨hinner, hnames "a" (by decide) fun hmem => ?_⟩
    have hall : "a" ∈ sessionNames 1000 [brokenBlock, "print a;"] := by
      obtain ⟨source, hsource, hname⟩ := List.mem_flatMap.mp hmem
      exact List.mem_flatMap.mpr ⟨source, List.mem_of_mem_take hsource, hname⟩
    rw [hdeclared] at hall
    cases hall

end LoxScript
