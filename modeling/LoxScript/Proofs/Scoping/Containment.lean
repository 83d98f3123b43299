import LoxScript.Proofs.Scoping.Declared
import LoxScript.Proofs.Scoping.Shelter

/-!
# What a program leaves alone

Blocks do not leak. In a program that was read from tokens, a declaration adds at most its own name to
the innermost scope, no other statement adds or removes a name anywhere, and evaluation prints nothing.
So a run adds the names that are declared at the top of the program and no others, and a block that
declares a variable before it assigns to it leaves the variable outside alone
(`blocks_are_contained`).
-/

namespace LoxScript

namespace Stmt

mutual

/-- The statement and all statements within it. -/
def parts : Stmt → List Stmt
  | block body line => block body line :: partsAll body
  | ifThen c s line => ifThen c s line :: s.parts
  | ifElse c s t line => ifElse c s t line :: (s.parts ++ t.parts)
  | loop c s line => loop c s line :: s.parts
  | s => [s]

/-- The statements and all statements within them. -/
def partsAll : List Stmt → List Stmt
  | [] => []
  | s :: ss => s.parts ++ partsAll ss

end

mutual

/-- In a placed statement, every statement is placed. -/
theorem placed_of_mem_parts {s t : Stmt} (hs : s.Placed) (ht : t ∈ s.parts) : t.Placed := by
  cases s with
  | block body line =>
    rcases List.mem_cons.mp ht with rfl | ht
    · exact hs
    · exact placed_of_mem_partsAll hs ht
  | ifThen c s line =>
    rcases List.mem_cons.mp ht with rfl | ht
    · exact hs
    · exact placed_of_mem_parts hs.2 ht
  | ifElse c s s' line =>
    rcases List.mem_cons.mp ht with rfl | ht
    · exact hs
    · rcases List.mem_append.mp ht with ht | ht
      · exact placed_of_mem_parts hs.1.2 ht
      · exact placed_of_mem_parts hs.2.2 ht
  | loop c s line =>
    rcases List.mem_cons.mp ht with rfl | ht
    · exact hs
    · exact placed_of_mem_parts hs.2 ht
  | expression _ _ | print _ _ | declare _ _ _ | malformed _ _ =>
    rw [List.mem_singleton.mp ht]
    exact hs

theorem placed_of_mem_partsAll {ss : List Stmt} {t : Stmt} (hss : PlacedAll ss)
    (ht : t ∈ partsAll ss) : t.Placed := by
  cases ss with
  | nil => cases ht
  | cons s ss =>
    rcases List.mem_append.mp ht with ht | ht
    · exact placed_of_mem_parts hss.1 ht
    · exact placed_of_mem_partsAll hss.2 ht

end

end Stmt

/-- Evaluation changes nothing of a machine but values. -/
theorem value_contained (b : Bounds) (room : Nat) (e : Expr) (m : Machine) :
    ∃ c, endState (Exec.value b room e m) = { m with chain := c } ∧ c.names = m.chain.names :=
  ⟨_, endState_value b room e m, frames_eval b.trap room e m.chain⟩

/-- A declaration changes the names of the innermost scope only, and adds at most its own name at the
end. -/
theorem declare_contained (b : Bounds) (room : Nat) (name : Token) (first : Option Expr) (line : Int)
    (m : Machine) {ls : List String} {outer : List (List String)} (hm : m.chain.names = ls :: outer) :
    (endState ((Stmt.declare name first line).exec b room m)).chain.names = ls :: outer ∨
      name.lexeme ∉ ls ∧
        (endState ((Stmt.declare name first line).exec b room m)).chain.names =
          (ls ++ [name.lexeme]) :: outer := by
  have hnames := names_exec_declare b room name first line m
  cases h : (Stmt.declare name first line).exec b room m with
  | ok u m' =>
    rw [h, hm] at hnames
    dsimp only [Layers.declare] at hnames
    by_cases hmem : name.lexeme ∈ ls
    · rw [if_pos hmem] at hnames
      exact .inl hnames
    · rw [if_neg hmem] at hnames
      exact .inr ⟨hmem, hnames⟩
  | error e m' =>
    rw [h, hm] at hnames
    exact .inl hnames

/-- Blocks do not leak. For every statement of a program that was read from tokens, on every machine,
with every bounds and however its execution ends: if it is no declaration, the scopes keep their names;
a declaration adds at most its own name, to the innermost scope; and a block that shelters a variable
leaves all bindings of it outside alone. The evaluation of any expression changes values only. So what
is added to the scope of a program are the new names among those declared at its top by the statements
that were carried out, in order, and this is what a run adds to the global scope. -/
theorem blocks_are_contained :
    (∀ (nesting : Nat) (ts : List Token) (b : Bounds) (room : Nat) (m : Machine),
      ∀ s ∈ Stmt.partsAll (Program.ofTokens nesting ts).statements,
        (s.declares = false → (endState (s.exec b room m)).chain.names = m.chain.names) ∧
        (∀ name first line, s = .declare name first line →
          ∀ ls outer, m.chain.names = ls :: outer →
            (endState (s.exec b room m)).chain.names = ls :: outer ∨
              name.lexeme ∉ ls ∧
                (endState (s.exec b room m)).chain.names = (ls ++ [name.lexeme]) :: outer) ∧
        (∀ body line x, s = .block body line → Stmt.sheltersAll x body = true →
          (endState (s.exec b room m)).chain.scopes.map (·.find? x) =
            m.chain.scopes.map (·.find? x))) ∧
    (∀ (b : Bounds) (room : Nat) (e : Expr) (m : Machine),
      ∃ c, endState (Exec.value b room e m) = { m with chain := c } ∧ c.names = m.chain.names) ∧
    (∀ (nesting : Nat) (ts : List Token) (b : Bounds) (room : Nat) (m : Machine),
      let ss := (Program.ofTokens nesting ts).statements
      Stmt.completed b room ss m <+: ss ∧
        (∀ m', Stmt.execAll b room ss m = .ok () m' → Stmt.completed b room ss m = ss) ∧
        ∀ ls outer, m.chain.names = ls :: outer →
          (endState (Stmt.execAll b room ss m)).chain.names =
            (ls ++ newNames ls (Stmt.declaredNames (Stmt.completed b room ss m))) :: outer) ∧
    ∀ (b : Bounds) (source : String) (m : Machine) (r : Report), run b source m = .ok r →
      m.chain.inner = [] →
        r.machine.chain.inner = [] ∧
          r.machine.chain.global.names = m.chain.global.names ++
            newNames m.chain.global.names (Stmt.declaredNames (carriedOut b source m)) := by
  refine ⟨fun nesting ts b room m s hs => ⟨?_, ?_, ?_⟩, value_contained, ?_, ?_⟩
  · intro hdeclares
    have hplaced := Stmt.placed_of_mem_partsAll (placedAll_ofTokens nesting ts) hs
    exact frames_exec b room s ⟨hdeclares, hplaced⟩ m
  · rintro name first line rfl ls outer hm
    exact declare_contained b room name first line m hm
  · rintro body line x rfl hbody
    exact bindings_exec_block b room body line hbody m
  · intro nesting ts b room m ss
    refine ⟨Stmt.prefix_completed b room ss m, fun m' => Stmt.completed_of_ok, ?_⟩
    intro ls outer hm
    rw [names_execAll b room (placedAll_ofTokens nesting ts) m, hm]
    exact Layers.foldl_behind ls outer _
  · intro b source m r h hm
    exact global_names_run h hm

/-- A program with a block that declares a variable of its own and gives it another value. -/
def shadowingSource : String := "var a = true; { var a; a = nil; var c; } var b = a;"

/-- The second of three statements is a block that shelters the name. -/
def sheltersSecond (x : String) : List Stmt → Bool
  | [_, .block body _, _] => Stmt.sheltersAll x body
  | _ => false

theorem shadowingSource_is_contained :
    (∃ body line,
      Stmt.block body line ∈
          Stmt.partsAll (Program.ofTokens 1000 (Scan.ofSource shadowingSource).tokens).statements ∧
        Stmt.sheltersAll "a" body = true ∧
        ∀ m : Machine, (endState ((Stmt.block body line).exec {} 1000 m)).chain.scopes.map
          (·.find? "a") = m.chain.scopes.map (·.find? "a")) ∧
    ∃ r, run {} shadowingSource Machine.fresh = .ok r ∧ r.machine.chain.inner = [] ∧
      r.machine.chain.global.names = ["a", "b"] := by
  obtain ⟨hparts, -, -, hrun⟩ := blocks_are_contained
  constructor
  · have hform : sheltersSecond "a"
        (Program.ofTokens 1000 (Scan.ofSource shadowingSource).tokens).statements = true := by
      decide +kernel
    have hstatements := hparts 1000 (Scan.ofSource shadowingSource).tokens {} 1000
    generalize (Program.ofTokens 1000 (Scan.ofSource shadowingSource).tokens).statements = ss at *
    unfold sheltersSecond at hform
    split at hform
    · next s body line t =>
      have hmem : Stmt.block body line ∈ Stmt.partsAll [s, .block body line, t] := by
        simp [Stmt.partsAll, Stmt.parts]
      exact ⟨body, line, hmem, hform,
        fun m => (hstatements m _ hmem).2.2 body line "a" rfl hform⟩
    · cases hform
  · have hok : (run {} shadowingSource Machine.fresh).toOption.isSome = true := by decide +kernel
    have hcarried : Stmt.declaredNames (carriedOut {} shadowingSource Machine.fresh) = ["a", "b"] := by
      decide +kernel
    cases hreport : run {} shadowingSource Machine.fresh with
    | error halt =>
      rw [hreport] at hok
      cases hok
    | ok r =>
      obtain ⟨hinner, hnames⟩ := hrun {} shadowingSource Machine.fresh r hreport rfl
      rw [hcarried] at hnames
      exact ⟨r, rfl, hinner, hnames⟩

end LoxScript
