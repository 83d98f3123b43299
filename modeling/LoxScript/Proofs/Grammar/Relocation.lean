import LoxScript.Proofs.Grammar.Relabeling

/-!
# Moving a program to other lines

Reading a program takes the lines from the tokens and looks at them nowhere. So if every token is
moved to another line, the result is moved in the same way: the statements and the errors. To move is
to give other labels that leave the names alone.
-/

namespace LoxScript

variable {g : Int → Int}

/-! ## Moving tokens and trees -/

/-- The token on another line. -/
def Token.moved (g : Int → Int) (t : Token) : Token := { t with line := g t.line }

/-- The expression with each of its parts on another line. -/
def Expr.moved (g : Int → Int) : Expr → Expr
  | literal v l => .literal v (g l)
  | unary op e l => .unary (op.moved g) (e.moved g) (g l)
  | binary e op f l => .binary (e.moved g) (op.moved g) (f.moved g) (g l)
  | logical e op f l => .logical (e.moved g) (op.moved g) (f.moved g) (g l)
  | grouping e l => .grouping (e.moved g) (g l)
  | read name l => .read (name.moved g) (g l)
  | assign name e l => .assign (name.moved g) (e.moved g) (g l)
  | malformed kind l => .malformed kind (g l)

namespace Stmt

mutual

/-- The statement with each of its parts on another line. -/
def moved (g : Int → Int) : Stmt → Stmt
  | expression e l => .expression (e.moved g) (g l)
  | print e l => .print (e.moved g) (g l)
  | declare name first l => .declare (name.moved g) (first.map (Expr.moved g)) (g l)
  | block body l => .block (movedAll g body) (g l)
  | ifThen c s l => .ifThen (c.moved g) (s.moved g) (g l)
  | ifElse c s t l => .ifElse (c.moved g) (s.moved g) (t.moved g) (g l)
  | loop c s l => .loop (c.moved g) (s.moved g) (g l)
  | malformed kind l => .malformed kind (g l)

/-- Statements in a row on other lines. -/
def movedAll (g : Int → Int) : List Stmt → List Stmt
  | [] => []
  | s :: ss => s.moved g :: movedAll g ss

end

end Stmt

/-- The error on another line. -/
def SyntaxError.moved (g : Int → Int) (e : SyntaxError) : SyntaxError := ⟨e.token.moved g, e.cause⟩

/-! ## Other lines as other labels -/

/-- Other lines, and the same names. -/
def Relabeling.ofLines (g : Int → Int) : Relabeling := ⟨id, g⟩

@[simp] theorem Relabeling.line_ofLines (g : Int → Int) : (ofLines g).line = g := rfl

/-- Where only the lines are other ones, a label is the line. -/
theorem Token.relabeled_ofLines (g : Int → Int) : Token.relabeled (.ofLines g) = Token.moved g := by
  funext t
  simp [Token.relabeled, Relabeling.ofLines, Token.moved]

theorem Token.renamed_ofLines (g : Int → Int) : Token.renamed (.ofLines g) = Token.moved g := rfl

theorem Expr.relabeled_ofLines (g : Int → Int) : Expr.relabeled (.ofLines g) = Expr.moved g := by
  funext e
  induction e <;>
    simp_all [Expr.relabeled, Expr.moved, Token.relabeled_ofLines, Token.renamed_ofLines]

namespace Stmt

mutual

/-- A statement with other lines only is one that is moved. -/
theorem relabeled_ofLines (g : Int → Int) (s : Stmt) : s.relabeled (.ofLines g) = s.moved g := by
  cases s with
  | block body l =>
    rw [relabeled, moved, relabeledAll_ofLines g body]
    rfl
  | ifThen c s l =>
    rw [relabeled, moved, relabeled_ofLines g s, Expr.relabeled_ofLines]
    rfl
  | ifElse c s t l =>
    rw [relabeled, moved, relabeled_ofLines g s, relabeled_ofLines g t, Expr.relabeled_ofLines]
    rfl
  | loop c s l =>
    rw [relabeled, moved, relabeled_ofLines g s, Expr.relabeled_ofLines]
    rfl
  | declare name first l =>
    rw [relabeled, moved, Expr.relabeled_ofLines]
    rfl
  | expression e l | print e l =>
    rw [relabeled, moved, Expr.relabeled_ofLines]
    rfl
  | malformed kind l => rfl

theorem relabeledAll_ofLines (g : Int → Int) (ss : List Stmt) :
    relabeledAll (.ofLines g) ss = movedAll g ss := by
  cases ss with
  | nil => rfl
  | cons s ss => rw [relabeledAll, movedAll, relabeled_ofLines g s, relabeledAll_ofLines g ss]

end

end Stmt

theorem SyntaxError.relabeled_ofLines (g : Int → Int) :
    SyntaxError.relabeled (.ofLines g) = SyntaxError.moved g := by
  funext e
  simp only [SyntaxError.relabeled, SyntaxError.moved, Token.relabeled_ofLines]

/-! ## Programs -/

/-- A token that is moved is no end mark if it was none. -/
theorem Cursor.isProper_moved {ts : List Token} (h : ∀ t ∈ ts, isProper t = true) :
    ∀ t ∈ ts.map (Token.moved g), isProper t = true := by
  intro t ht
  obtain ⟨u, hu, rfl⟩ := List.mem_map.mp ht
  exact h u hu

/-- A program whose tokens are moved to other lines is read as the moved statements, with the moved
errors. -/
theorem Program.ofTokens_moved (room : Nat) (ts : List Token) (z : Token) :
    (ofTokens room ((ts ++ [z]).map (Token.moved g))).statements =
        Stmt.movedAll g (ofTokens room (ts ++ [z])).statements ∧
      (ofTokens room ((ts ++ [z]).map (Token.moved g))).errors =
        (ofTokens room (ts ++ [z])).errors.map (SyntaxError.moved g) ∧
      (ofTokens room ((ts ++ [z]).map (Token.moved g))).panicked =
        (ofTokens room (ts ++ [z])).panicked := by
  have hprogram := ofTokens_relabeled (.ofLines g) room (ts ++ [z]) (by simp)
  rw [Token.relabeled_ofLines] at hprogram
  rw [hprogram, ← Stmt.relabeledAll_ofLines, ← SyntaxError.relabeled_ofLines]
  exact ⟨rfl, rfl, rfl⟩

end LoxScript
