import Mathlib.Data.List.TakeWhile
import LoxScript.Proofs.Grammar.Replacement
import LoxScript.Proofs.Machine.Grouping

/-!
# Redundant parentheses

Parentheses around an expression of a program add one node to its tree: the tokens around them are read
as before, wherever the expression stands. An expression statement that begins with them goes to their
line. And the new node has no effect on what the program does (`parentheses_redundant`).
-/

namespace LoxScript

/-! ## Trees -/

section

variable {a b : Expr}

/-- What differs in groupings alone may be replaced without a difference to the tree that has none. -/
theorem Expr.Replaces.bare_eq (hab : a.bare = b.bare) {e e' : Expr} (h : Replaces a b e e') :
    e.bare = e'.bare := by
  induction h with
  | here => exact hab
  | operand _ ih | binaryLeft _ ih | binaryRight _ ih | logicalLeft _ ih | logicalRight _ ih
  | inner _ ih | value _ ih => simp only [Expr.bare, ih]

namespace Stmt

mutual

theorem Replaces.bare_eq (hab : a.bare = b.bare) {s s' : Stmt} (h : Replaces a b s s') :
    s.bare = s'.bare := by
  cases h with
  | expression h | print h | ifThenCondition h | ifElseCondition h | loopCondition h =>
    simp only [bare, h.bare_eq hab]
  | declare h => simp only [bare, Option.map_some, h.bare_eq hab]
  | block h => simp only [bare, h.bareAll_eq hab]
  | ifThenBody h | ifElseBody h | ifElseOther h | loopBody h => simp only [bare, h.bare_eq hab]

theorem ReplacesIn.bareAll_eq (hab : a.bare = b.bare) {ss ss' : List Stmt}
    (h : ReplacesIn a b ss ss') : bareAll ss = bareAll ss' := by
  cases h with
  | head h => simp only [bareAll, h.bare_eq hab]
  | tail h => simp only [bareAll, h.bareAll_eq hab]

end

end Stmt

end

/-! ## Tokens -/

namespace Program

/-- The tokens are read as the statements without an error, unless they are nested too deeply. -/
def ReadsAs (ts : List Token) (ss : List Stmt) : Prop :=
  ∀ room, ¬ TooDeep room ts → (ofTokens room ts).errors = [] ∧ (ofTokens room ts).statements = ss

/-- With parentheses on the line around the tokens `written`, all are read as the statements. -/
def Encloses (before written after : List Token) (line : Int) (ss : List Stmt) : Prop :=
  ∀ left right, left.kind = .leftParen → left.line = line → right.kind = .rightParen →
    ReadsAs (before ++ (left :: written ++ [right]) ++ after) ss

/-- What is derived from the tokens before the first end mark is read. -/
theorem readsAs_of_declarations {ts : List Token} {ss : List Stmt}
    (h : Declarations (ts.takeWhile Cursor.isProper) ss) : ReadsAs ts ss := by
  intro room hdeep
  rw [← rest_ofTokens] at h
  have hread : Parse.program room (.ofTokens ts) = _ :=
    Parse.program_of_declarations h fun e he hcause => hdeep ⟨e, he, hcause⟩
  unfold ofTokens
  rw [hread]
  exact ⟨ParseState.noted_behind _ _, rfl⟩

/-- Conversely, what is read without an error is derived. -/
theorem derives_of_errors {room : Nat} {ts : List Token} (h : (ofTokens room ts).errors = []) :
    Declarations (ts.takeWhile Cursor.isProper) (ofTokens room ts).statements := by
  rw [← rest_ofTokens]
  exact Parse.derives_programOf (Nat.le_refl _) h

section

variable {ts before written after ms : List Token} {ss ss' : List Stmt}

/-- Other tokens between those that stand before the first end mark leave the mark where it is. -/
theorem readsAs_between (hts : ts.takeWhile Cursor.isProper = before ++ written ++ after)
    (hms : ∀ t ∈ ms, Cursor.isProper t = true) (h : Declarations (before ++ ms ++ after) ss) :
    ReadsAs (before ++ ms ++ (after ++ ts.dropWhile Cursor.isProper)) ss := by
  have hproper : ∀ t ∈ before ++ ms ++ after, Cursor.isProper t = true := by
    have hall : ∀ t ∈ before ++ written ++ after, Cursor.isProper t = true := by
      rw [← hts]
      exact fun t ht => List.mem_takeWhile_imp ht
    simp only [List.forall_mem_append] at hall ⊢
    exact ⟨⟨hall.1.1, hms⟩, hall.2⟩
  have hmark : (ts.dropWhile Cursor.isProper).takeWhile Cursor.isProper = [] := by
    rw [List.takeWhile_eq_nil_iff]
    intro hlt
    exact List.dropWhile_get_zero_not _ _ hlt
  refine readsAs_of_declarations ?_
  rwa [← List.append_assoc, List.takeWhile_append_of_pos hproper, hmark, List.append_nil]

/-- An expression that is written in its place, or could be, can be enclosed there. -/
theorem encloses_of_slot {e : Expr} {line : Int}
    (hts : ts.takeWhile Cursor.isProper = before ++ written ++ after)
    (hslot : Slot Declarations e (.grouping e line) ss ss' before written after)
    (hms : ∀ t ∈ ms, Cursor.isProper t = true) (h : Phrase 0 ms e) :
    Encloses before ms (after ++ ts.dropWhile Cursor.isProper) line ss' := by
  rintro left right hleft rfl hright
  refine readsAs_between hts ?_ (hslot.other _ (.parentheses hleft h hright))
  simp only [List.forall_mem_append, List.forall_mem_cons]
  exact ⟨⟨by simp [Cursor.isProper, hleft], hms⟩, by simp [Cursor.isProper, hright], by simp⟩

end

end Program

/-- Parentheses around an expression change nothing.

Each expression in the tree of a program without errors is written somewhere among its tokens, and with
parentheses around it there the program is read without an error, as the same tree but for one
grouping. This holds with all room in which the tokens are not nested too deeply, as with twice as much as
there are tokens, and a little more. One expression is not written: the condition of a loop that has none.
But the word "true" may be written in its place, which makes the same tree, and then the parentheses may
be.

Trees that differ in groupings alone have the same results, errors, scopes and output, in every
state, unless the stack is exhausted. -/
theorem parentheses_redundant :
    (∀ (room : Nat) (ts : List Token), (Program.ofTokens room ts).errors = [] →
      ∀ (e : Expr) (line : Int) (ss : List Stmt),
        Stmt.ReplacesIn e (.grouping e line) (Program.ofTokens room ts).statements ss →
        ∃ before written after, ts = before ++ written ++ after ∧
          (Phrase 0 written e ∧ Program.Encloses before written after line ss ∨
            written = [] ∧ ∃ l, e = .literal (.bool true) l ∧
              ∀ word, word.kind = .trueWord → word.line = l →
                Program.ReadsAs (before ++ [word] ++ after) (Program.ofTokens room ts).statements ∧
                Program.Encloses before [word] after line ss)) ∧
    (∀ (room : Nat) (ts : List Token), 2 * ts.length + 3 ≤ room → ¬ Program.TooDeep room ts) ∧
    (∀ (e : Expr) (line : Int) (ss ss' : List Stmt),
      Stmt.ReplacesIn e (.grouping e line) ss ss' → Stmt.bareAll ss = Stmt.bareAll ss') ∧
    (∀ (trap : String → Bool) (e f : Expr), e.bare = f.bare → ∀ (room room' : Nat) (c : Chain),
      Exhausted (e.eval trap room c) ∨ Exhausted (f.eval trap room' c) ∨
        e.eval trap room c = f.eval trap room' c) ∧
    (∀ (b : Bounds) (ss ts : List Stmt), Stmt.bareAll ss = Stmt.bareAll ts →
      ∀ (room room' : Nat) (m m' : Machine), m.Matches m' →
        Exhausted (Stmt.execAll b room ss m) ∨ Exhausted (Stmt.execAll b room' ts m') ∨
          Alike Machine.Matches (Stmt.execAll b room ss m) (Stmt.execAll b room' ts m')) := by
  refine ⟨?_, fun room ts => Program.not_tooDeep_of_room,
    fun e line ss ss' h => h.bareAll_eq (a := e) (b := .grouping e line) rfl,
    fun trap e f h => Expr.eval_of_bare trap h,
    fun b ss ts h room room' m m' => Stmt.execAll_of_bare b h room room'⟩
  intro room ts herrors e line ss hr
  obtain ⟨before, written, after, hts, hslot⟩ := (Program.derives_of_errors herrors).slot hr
  refine ⟨before, written, after ++ ts.dropWhile Cursor.isProper, ?_, ?_⟩
  · rw [← List.append_assoc, ← hts, List.takeWhile_append_dropWhile]
  rcases hslot.written with hwritten | ⟨rfl, l, rfl⟩
  · refine .inl ⟨hwritten, Program.encloses_of_slot hts hslot (fun t ht => ?_) hwritten⟩
    have hmem : t ∈ ts.takeWhile Cursor.isProper := by simp [hts, ht]
    exact List.mem_takeWhile_imp hmem
  · refine .inr ⟨rfl, l, rfl, ?_⟩
    rintro word hword rfl
    have hproper : ∀ t ∈ [word], Cursor.isProper t = true := by simp [Cursor.isProper, hword]
    have hphrase : Phrase 8 [word] (.literal (.bool true) word.line) :=
      .atom (by simp [Expr.ofToken?, hword])
    exact ⟨Program.readsAs_between hts hproper (hslot.same _ hphrase),
      Program.encloses_of_slot hts hslot hproper (hphrase.loosen (Nat.zero_le 8))⟩

/-- The tokens of `print !nil == true;`. -/
def comparedNegation : List Token :=
  [⟨.printWord, "print", .nil, 1⟩, ⟨.bang, "!", .nil, 1⟩, ⟨.nilWord, "nil", .nil, 1⟩,
   ⟨.equalEqual, "==", .nil, 1⟩, ⟨.trueWord, "true", .nil, 1⟩, ⟨.semicolon, ";", .nil, 1⟩]

/-- The left side of the comparison. -/
def negatedNil : Expr := .unary ⟨.bang, "!", .nil, 1⟩ (.literal .nil 1) 1

/-- The comparison of an expression, which is printed. -/
def printedComparison (e : Expr) : List Stmt :=
  [.print (.binary e ⟨.equalEqual, "==", .nil, 1⟩ (.literal (.bool true) 1) 1) 1]

/-- There is a place for parentheses around the left side, and with them the same is printed. -/
theorem comparedNegation_enclosed :
    (Program.ofTokens 40 comparedNegation).errors = [] ∧
      (Program.ofTokens 40 comparedNegation).statements = printedComparison negatedNil ∧
      (∃ before written after, comparedNegation = before ++ written ++ after ∧
        Phrase 0 written negatedNil ∧
        (Program.ofTokens 40 (before ++ (⟨.leftParen, "(", .nil, 1⟩ :: written ++
            [⟨.rightParen, ")", .nil, 1⟩]) ++ after)).statements =
          printedComparison (.grouping negatedNil 1)) ∧
      negatedNil.eval (fun _ => false) 40 Machine.fresh.chain =
        (Expr.grouping negatedNil 1).eval (fun _ => false) 40 Machine.fresh.chain ∧
      Alike Machine.Matches
        (Stmt.execAll {} 40 (printedComparison negatedNil) .fresh)
        (Stmt.execAll {} 40 (printedComparison (.grouping negatedNil 1)) .fresh) := by
  have herrors : (Program.ofTokens 40 comparedNegation).errors = [] := by decide
  have hstatements :
      (Program.ofTokens 40 comparedNegation).statements = printedComparison negatedNil := rfl
  have hreplaces : Stmt.ReplacesIn negatedNil (.grouping negatedNil 1)
      (printedComparison negatedNil) (printedComparison (.grouping negatedNil 1)) :=
    .head (.print (.binaryLeft .here))
  obtain ⟨hslots, hroom, hbare, heval, hexec⟩ := parentheses_redundant
  refine ⟨herrors, hstatements, ?_, ?_, ?_⟩
  · obtain ⟨before, written, after, hts, ⟨hwritten, henclosed⟩ | ⟨-, l, hnone, -⟩⟩ :=
      hslots 40 comparedNegation herrors negatedNil 1 _ (hstatements ▸ hreplaces)
    · have hlength : comparedNegation.length = before.length + written.length + after.length := by
        rw [hts, List.length_append, List.length_append]
      have hdeep := hroom 40 (before ++ (⟨.leftParen, "(", .nil, 1⟩ :: written ++
        [⟨.rightParen, ")", .nil, 1⟩]) ++ after) (by
          simp only [List.length_append, List.length_cons, List.length_nil]
          have hsix : comparedNegation.length = 6 := rfl
          omega)
      exact ⟨before, written, after, hts, hwritten, (henclosed _ _ rfl rfl rfl 40 hdeep).2⟩
    · cases hnone
  · rcases heval (fun _ => false) negatedNil (.grouping negatedNil 1) rfl 40 40 Machine.fresh.chain with
      ⟨c, hc⟩ | ⟨c, hc⟩ | hsame
    · cases hc
    · cases hc
    · exact hsame
  · rcases hexec {} _ _ (hbare _ _ _ _ hreplaces) 40 40 .fresh .fresh ⟨rfl, rfl⟩ with
      ⟨m, hm⟩ | ⟨m, hm⟩ | halike
    · cases hm
    · cases hm
    · exact halike

end LoxScript
