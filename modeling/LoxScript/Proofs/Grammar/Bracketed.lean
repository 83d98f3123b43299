import LoxScript.Grammar.Display
import LoxScript.Proofs.Lexeme.Ending

/-!
# Bracketed forms can be read in one way only

The bracketed form of a tree is a word, or a pair of brackets around a head and items, each behind a
blank. Words and heads hold no brackets and no blanks, and so they end where a blank, a bracket or the
end comes. That is enough to tell from the text alone where each item begins and ends, however many
there are (`Bracketed.eq_of_write_eq`).

`Expr.bracketed` and `Stmt.bracketed` are the forms whose text is displayed.
-/

namespace LoxScript

/-- A bracketed form. -/
inductive Bracketed where
  | word (letters : List Char)
  | group (head : List Char) (items : List Bracketed)
deriving Inhabited

namespace Bracketed

mutual

/-- The text of a form. -/
def write : Bracketed → List Char
  | word letters => letters
  | group head items => '(' :: (head ++ (writeEach items ++ [')']))

/-- The texts of forms, with a blank before each. -/
def writeEach : List Bracketed → List Char
  | [] => []
  | x :: xs => ' ' :: (x.write ++ writeEach xs)

end

/-- Whether `c` can stand in a word: it is neither a blank nor a bracket. -/
def inWord (c : Char) : Bool := c != ' ' && c != '(' && c != ')'

/-- The characters are a word, or part of one. -/
def Solid (cs : List Char) : Prop := ∀ c ∈ cs, inWord c = true

instance (cs : List Char) : Decidable (Solid cs) := decidable_of_iff _ List.all_eq_true

mutual

/-- No word and no head of the form has a blank or a bracket in it. -/
def Legible : Bracketed → Prop
  | word letters => Solid letters
  | group head items => Solid head ∧ LegibleAll items

/-- All forms of the list are legible. -/
def LegibleAll : List Bracketed → Prop
  | [] => True
  | x :: xs => x.Legible ∧ LegibleAll xs

end

/-- A form may end here: nothing follows, or the next item, or the end of the brackets around it. -/
def Closes (cs : List Char) : Prop := cs = [] ∨ ∃ more, cs = ' ' :: more ∨ cs = ')' :: more

/-- A word cannot go on where a form may end. -/
theorem Closes.stops {cs : List Char} (h : Closes cs) : Stops inWord cs := by
  rcases h with rfl | ⟨more, rfl | rfl⟩
  · exact stops_nil
  · exact stops_cons.mpr rfl
  · exact stops_cons.mpr rfl

/-- Items in brackets are followed by a blank or by the bracket that closes. -/
theorem closes_writeEach (xs : List Bracketed) (cs : List Char) :
    Closes (writeEach xs ++ (')' :: cs)) := by
  cases xs with
  | nil => exact .inr ⟨cs, .inr rfl⟩
  | cons x xs => exact .inr ⟨_, .inl rfl⟩

/-- A word ends where the form ends. -/
theorem eq_of_solid_append {cs ds more more' : List Char} (hcs : Solid cs) (hds : Solid ds)
    (hmore : Closes more) (hmore' : Closes more') (h : cs ++ more = ds ++ more') :
    cs = ds ∧ more = more' := by
  obtain ⟨hword, hrest⟩ := span_of_stops hcs hmore.stops
  obtain ⟨hword', hrest'⟩ := span_of_stops hds hmore'.stops
  rw [h] at hword hrest
  exact ⟨hword.symm.trans hword', hrest.symm.trans hrest'⟩

/-- A word does not begin like a group. -/
theorem word_ne_group {letters more cs : List Char} (h : Solid letters) (hmore : Closes more) :
    letters ++ more ≠ '(' :: cs := by
  intro heq
  cases letters with
  | nil => rcases hmore with rfl | ⟨more, rfl | rfl⟩ <;> cases heq
  | cons c letters =>
    cases heq
    exact absurd (h '(' (by simp)) (by decide)

theorem write_group_append (head : List Char) (items : List Bracketed) (more : List Char) :
    (group head items).write ++ more = '(' :: (head ++ (writeEach items ++ (')' :: more))) := by
  simp [write]

mutual

/-- Legible forms with the same text are the same, and so is what follows them. -/
theorem eq_of_write_append {x y : Bracketed} {more more' : List Char} (hx : x.Legible)
    (hy : y.Legible) (hmore : Closes more) (hmore' : Closes more')
    (h : x.write ++ more = y.write ++ more') : x = y ∧ more = more' := by
  cases x with
  | word letters =>
    cases y with
    | word letters' =>
      obtain ⟨rfl, hrest⟩ := eq_of_solid_append hx hy hmore hmore' h
      exact ⟨rfl, hrest⟩
    | group head items =>
      rw [write_group_append] at h
      exact absurd h (word_ne_group hx hmore)
  | group head items =>
    cases y with
    | word letters =>
      rw [write_group_append] at h
      exact absurd h.symm (word_ne_group hy hmore')
    | group head' items' =>
      rw [write_group_append, write_group_append, List.cons.injEq] at h
      obtain ⟨rfl, hitems⟩ := eq_of_solid_append hx.1 hy.1 (closes_writeEach _ _)
        (closes_writeEach _ _) h.2
      obtain ⟨rfl, hrest⟩ := eq_of_writeEach_append hx.2 hy.2 hitems
      exact ⟨rfl, hrest⟩

/-- So can items in brackets be told from what follows the brackets. -/
theorem eq_of_writeEach_append {xs ys : List Bracketed} {more more' : List Char}
    (hxs : LegibleAll xs) (hys : LegibleAll ys)
    (h : writeEach xs ++ (')' :: more) = writeEach ys ++ (')' :: more')) :
    xs = ys ∧ more = more' := by
  cases xs with
  | nil =>
    cases ys with
    | nil =>
      cases h
      exact ⟨rfl, rfl⟩
    | cons y ys => cases h
  | cons x xs =>
    cases ys with
    | nil => cases h
    | cons y ys =>
      simp only [writeEach, List.cons_append, List.append_assoc, List.cons.injEq, true_and] at h
      obtain ⟨rfl, hlater⟩ := eq_of_write_append hxs.1 hys.1 (closes_writeEach _ _)
        (closes_writeEach _ _) h
      obtain ⟨rfl, hrest⟩ := eq_of_writeEach_append hxs.2 hys.2 hlater
      exact ⟨rfl, hrest⟩

end

/-- The text of a legible form can be read in one way only. -/
theorem eq_of_write_eq {x y : Bracketed} (hx : x.Legible) (hy : y.Legible) (h : x.write = y.write) :
    x = y :=
  (eq_of_write_append hx hy (.inl rfl) (.inl rfl) (congrArg (· ++ []) h)).1

end Bracketed

/-! ## The forms of trees -/

namespace Expr

/-- The bracketed form of an expression. -/
def bracketed : Expr → Bracketed
  | literal v _ => .word v.display.toList
  | unary op e _ => .group op.lexeme.toList [e.bracketed]
  | binary l op r _ | logical l op r _ => .group op.lexeme.toList [l.bracketed, r.bracketed]
  | grouping e _ => .group "group".toList [e.bracketed]
  | read name _ => .word name.lexeme.toList
  | assign name e _ => .group "=".toList [.word name.lexeme.toList, e.bracketed]
  | malformed kind _ => .word ("<expr " ++ kind ++ ">").toList

/-- The display of an expression is the writing of its form. -/
theorem toList_display (e : Expr) : e.display.toList = e.bracketed.write := by
  induction e with
  | literal v l | read name l | malformed kind l => rfl
  | _ => simp_all [display, bracketed, Bracketed.write, Bracketed.writeEach]

end Expr

namespace Stmt

mutual

/-- The bracketed form of a statement. -/
def bracketed : Stmt → Bracketed
  | expression e _ => .group ";".toList [e.bracketed]
  | print e _ => .group "print".toList [e.bracketed]
  | declare name none _ => .group "var".toList [.word name.lexeme.toList]
  | declare name (some e) _ => .group "var".toList [.word name.lexeme.toList, e.bracketed]
  | block body _ => .group "block".toList (bracketedEach body)
  | ifThen c s _ => .group "if".toList [c.bracketed, s.bracketed]
  | ifElse c s t _ => .group "if".toList [c.bracketed, s.bracketed, t.bracketed]
  | loop c s _ => .group "while".toList [c.bracketed, s.bracketed]
  | malformed kind _ => .word ("<stmt " ++ kind ++ ">").toList

/-- Statements as forms, one by one. -/
def bracketedEach : List Stmt → List Bracketed
  | [] => []
  | s :: ss => s.bracketed :: bracketedEach ss

end

mutual

/-- The display of a statement is the writing of its form. -/
theorem toList_display (s : Stmt) : s.display.toList = s.bracketed.write := by
  cases s with
  | expression e l | print e l =>
    simp [display, bracketed, Bracketed.write, Bracketed.writeEach, e.toList_display]
  | declare name first l =>
    cases first with
    | none => simp [display, bracketed, Bracketed.write, Bracketed.writeEach]
    | some e => simp [display, bracketed, Bracketed.write, Bracketed.writeEach, e.toList_display]
  | block body l => simp [display, bracketed, Bracketed.write, toList_displayEach body]
  | ifThen c s l | loop c s l =>
    simp [display, bracketed, Bracketed.write, Bracketed.writeEach, c.toList_display,
      toList_display s]
  | ifElse c s t l =>
    simp [display, bracketed, Bracketed.write, Bracketed.writeEach, c.toList_display,
      toList_display s, toList_display t]
  | malformed kind l => rfl

theorem toList_displayEach (ss : List Stmt) :
    (displayEach ss).toList = Bracketed.writeEach (bracketedEach ss) := by
  cases ss with
  | nil => rfl
  | cons s ss =>
    simp [displayEach, bracketedEach, Bracketed.writeEach, toList_display s, toList_displayEach ss]

end

end Stmt

end LoxScript
