import LoxScript.Grammar.Program
import LoxScript.Proofs.Sequencing

/-!
# Where declarations stand

The grammar lets a variable be declared at the top of a program and in a block, but not as the body
of a conditional or a loop. `Stmt.Placed` says so of a tree, and every tree that is read from tokens
has this form (`placedAll_ofTokens`).
-/

namespace LoxScript

namespace Stmt

/-- Whether a statement declares a variable. -/
def declares : Stmt → Bool
  | declare _ _ _ => true
  | _ => false

mutual

/-- No body of a conditional or a loop within the statement is a declaration. -/
def Placed : Stmt → Prop
  | block body _ => PlacedAll body
  | ifThen _ s _ | loop _ s _ => s.declares = false ∧ s.Placed
  | ifElse _ s t _ => (s.declares = false ∧ s.Placed) ∧ (t.declares = false ∧ t.Placed)
  | _ => True

/-- No body of a conditional or a loop within the statements is a declaration. -/
def PlacedAll : List Stmt → Prop
  | [] => True
  | s :: ss => s.Placed ∧ PlacedAll ss

end

/-- A placed statement that can be the body of a conditional or a loop. -/
def PlacedBody (s : Stmt) : Prop := s.declares = false ∧ s.Placed

/-- The two blocks around a "for" loop keep its declaration in its place. -/
theorem placedBody_forLoop {line : Int} {clauses : ForClauses} {body : Stmt}
    (hf : ∀ s, clauses.first = some s → s.Placed) (hb : body.PlacedBody) :
    (Stmt.forLoop line clauses body).PlacedBody := by
  obtain ⟨first, condition, step⟩ := clauses
  cases first with
  | none =>
    cases step with
    | none => exact ⟨rfl, hb⟩
    | some e => exact ⟨rfl, rfl, hb.2, trivial, trivial⟩
  | some s =>
    have hs : s.Placed := hf s rfl
    cases step with
    | none => exact ⟨rfl, hs, hb, trivial⟩
    | some e => exact ⟨rfl, hs, ⟨rfl, hb.2, trivial, trivial⟩, trivial⟩

end Stmt

namespace Parse

open Stmt

variable {value : Parse Expr} {nested statement declaration : Parse Stmt}

/-- A variable declaration stands where it may. -/
theorem ensures_variableDeclaration : Ensures (variableDeclaration value) Placed := by
  refine .after fun _ => .after fun o => ?_
  cases o with
  | some _ => exact .after fun _ => .after fun _ => .after fun _ => .pure trivial
  | none => exact .after fun _ => .after fun _ => .pure trivial

theorem ensures_expressionStatement : Ensures (expressionStatement value) PlacedBody :=
  .after fun _ => .after fun _ => .pure ⟨rfl, trivial⟩

/-- A declaration stands where it may, and so does a statement in its place. -/
theorem ensures_declarationOf (hs : Ensures statement PlacedBody) :
    Ensures (declarationOf value statement) Placed := by
  refine .after fun o => ?_
  cases o with
  | some _ => exact ensures_variableDeclaration
  | none =>
    intro s t s' h
    exact (hs s t s' h).2

/-- The declarations of a block stand where they may. -/
theorem ensures_declarations (hd : Ensures declaration Placed) (fuel : Nat) :
    Ensures (declarations declaration fuel) PlacedAll := by
  induction fuel with
  | zero => exact .pure trivial
  | succ fuel ih =>
    refine .after fun o => ?_
    cases o with
    | none => exact .pure trivial
    | some t =>
      dsimp only
      split
      · exact .pure trivial
      · exact hd.bind fun s hs => ih.bind fun later hl => .pure ⟨hs, hl⟩

theorem ensures_forClauses :
    Ensures (forClauses value) fun c => ∀ s, c.first = some s → s.Placed := by
  refine .after fun _ => .bind (Q := fun o => ∀ s, o = some s → s.Placed) ?_ fun first hfirst => ?_
  · refine .after fun o => ?_
    cases o with
    | some _ => exact .pure (by simp)
    | none =>
      refine .after fun o => ?_
      cases o with
      | some _ => exact ensures_variableDeclaration.bind fun s hs => .pure (by simpa using hs)
      | none => exact ensures_expressionStatement.bind fun s hs => .pure (by simpa using hs.2)
  · exact .after fun _ => .after fun _ => .after fun _ => .after fun _ => .pure hfirst

/-- A statement whose parts are placed is placed, and declares nothing. -/
theorem ensures_statementOf (hn : Ensures nested PlacedBody) :
    Ensures (statementOf value nested) PlacedBody := by
  refine .after fun o => ?_
  cases o with
  | none => exact ensures_expressionStatement
  | some t =>
    dsimp only
    split
    · exact ensures_forClauses.bind fun c hc => hn.bind fun body hb =>
        .pure (placedBody_forLoop hc hb)
    · refine .after fun _ => .after fun c => .after fun _ => hn.bind fun body hb => .after fun o => ?_
      cases o with
      | some _ => exact hn.bind fun other ho => .pure ⟨rfl, hb, ho⟩
      | none => exact .pure ⟨rfl, hb⟩
    · exact .after fun _ => .after fun _ => .pure ⟨rfl, trivial⟩
    · exact .after fun _ => .after fun _ => .after fun _ => hn.bind fun body hb => .pure ⟨rfl, hb⟩
    · refine .bind (Q := PlacedAll) ?_ fun body hb => .pure ⟨rfl, hb⟩
      exact .after fun n => (ensures_declarations (ensures_declarationOf hn) n).bind
        fun body hb => .after fun _ => .pure hb

/-- Within a statement, variables are declared in blocks only. -/
theorem ensures_statement (room : Nat) : Ensures (Parse.statement room) PlacedBody := by
  induction room with
  | zero =>
    intro s t s' h
    cases h
  | succ room ih => exact ensures_statementOf ih

theorem ensures_declaration (room : Nat) : Ensures (Parse.declaration room) Placed :=
  ensures_declarationOf (ensures_statement room)

/-- All declarations of a program stand where they may. -/
theorem placedAll_programOf (hd : Ensures declaration Placed) (fuel : Nat) (s : ParseState) :
    PlacedAll (programOf declaration fuel s).1 := by
  induction fuel generalizing s with
  | zero => trivial
  | succ fuel ih =>
    unfold programOf
    split
    · trivial
    · cases h : declaration s with
      | ok d s₁ => exact ⟨hd s d s₁ h, ih s₁⟩
      | error e s₁ => exact ih _

end Parse

/-- In every program that is read from tokens, declarations stand at the top or in blocks. -/
theorem placedAll_ofTokens (room : Nat) (ts : List Token) :
    Stmt.PlacedAll (Program.ofTokens room ts).statements :=
  Parse.placedAll_programOf (Parse.ensures_declaration room) _ _

end LoxScript
