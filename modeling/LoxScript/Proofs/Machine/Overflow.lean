import LoxScript.Proofs.Machine.Sequence
import LoxScript.Proofs.Scoping.Containment

/-!
# Where the stack is exhausted

When the stack is exhausted, a machine knows nothing but the line of the statement that it started
last. `Stmt.watch` tells what was really going on: which statement was evaluating an expression of its
own, or about to start one of its parts. The line that the machine knows is the line of this statement,
with one exception: nothing is noted where the body of a loop has come to its end and the condition
is evaluated again, so that the line is still the one of a statement in the body (`located_exec`).
-/

namespace LoxScript

variable {α β : Type}

/-- What was going on when the stack was exhausted. -/
inductive Activity where
  /-- The statement was evaluating an expression of its own. -/
  | evaluating (s : Stmt)
  /-- A loop was evaluating its condition again, behind a turn. -/
  | returning (condition : Expr) (body : Stmt) (line : Int)
  /-- The statement was about to start a part of it. In front of a whole program there is none. -/
  | entering (s : Option Stmt)

namespace Activity

/-- The line `l` can be noted there: it is the one of the statement that was executing, or behind a
turn of a loop the one of a statement in its body. -/
def Notes : Activity → Int → Prop
  | evaluating s, l => l = s.line
  | returning _ body _, l => ∃ t ∈ body.parts, l = t.line
  | entering around, l => ∀ s, around = some s → l = s.line

end Activity

/-! ## Watching an execution -/

/-- What is going on when an execution exhausts the stack, if it does, on a given machine. -/
abbrev Watch := Machine → Option Activity

namespace Watch

/-- Nothing can exhaust the stack. -/
def idle : Watch := fun _ => none

/-- If the execution exhausts the stack, then `x` is going on. -/
def during (x : Activity) (p : Exec α) : Watch := fun m =>
  match p m with
  | .error .overflow _ => some x
  | _ => none

/-- Watches a sequence: its first part, and behind a result of that its second one. -/
def sequence (p : Exec α) (here : Watch) (later : α → Watch) : Watch := fun m =>
  match p m with
  | .ok a m' => later a m'
  | .error _ _ => here m

/-- Watches what is behind the start of a statement. -/
def behind (line : Int) (w : Watch) : Watch := fun m => w { m with line := line }

/-- Watches what has a scope of its own. -/
def inScope (w : Watch) : Watch := fun m => w { m with chain := m.chain.enter }

/-- Watches a test and what is done in either case. -/
def choice (test : Exec Bool) (x : Activity) (yes no : Watch) : Watch :=
  sequence test (during x test) fun v => if v then yes else no

/-- Watches a loop of which the body is watched by `within`: its next test, which is `first`, and
each further test, which is `again`. -/
def loop (test : Exec Bool) (body : Exec Unit) (within : Watch) (again : Activity) :
    (turns : Nat) → (first : Activity) → Watch
  | 0, _ => idle
  | turns + 1, first =>
    choice test first (sequence body within fun _ => loop test body within again turns again) idle

end Watch

namespace Stmt

open Exec Watch

mutual

/-- Watches a statement, which is a part of the statement `around`, unless that is missing. -/
def watch (b : Bounds) (around : Option Stmt) : (room : Nat) → Stmt → Watch
  | 0, _ => fun _ => some (.entering around)
  | room + 1, expression e line =>
    behind line (during (.evaluating (expression e line)) (value b room e))
  | room + 1, print e line =>
    behind line (during (.evaluating (print e line)) (value b room e))
  | _ + 1, declare _ none _ => idle
  | room + 1, declare name (some e) line =>
    behind line (during (.evaluating (declare name (some e) line)) (value b room e))
  | room + 1, block body line =>
    behind line (inScope (watchAll b (some (block body line)) room body))
  | room + 1, ifThen c s line =>
    behind line (choice (holds b room c) (.evaluating (ifThen c s line))
      (s.watch b (some (ifThen c s line)) room) idle)
  | room + 1, ifElse c s t line =>
    behind line (choice (holds b room c) (.evaluating (ifElse c s t line))
      (s.watch b (some (ifElse c s t line)) room) (t.watch b (some (ifElse c s t line)) room))
  | room + 1, loop c s line =>
    behind line (Watch.loop (holds b room c) (s.exec b room)
      (s.watch b (some (loop c s line)) room) (.returning c s line) b.turns
      (.evaluating (loop c s line)))
  | _ + 1, malformed _ _ => idle

/-- Watches statements in order. -/
def watchAll (b : Bounds) (around : Option Stmt) : (room : Nat) → List Stmt → Watch
  | _, [] => idle
  | room, s :: ss =>
    sequence (s.exec b room) (s.watch b around room) fun _ => watchAll b around room ss

end

end Stmt

/-! ## The line that is noted -/

/-- On both machines the same line is noted. -/
def SameLine (m m' : Machine) : Prop := m'.line = m.line

instance : IsPreorder Machine SameLine where
  refl _ := rfl
  trans _ _ _ h₁ h₂ := h₂.trans h₁

/-- Evaluation starts no statement, so that the line stays. -/
theorem sameLine_value (b : Bounds) (room : Nat) (e : Expr) :
    Frames SameLine (Exec.value b room e) := by
  intro m
  rw [endState_value]
  rfl

theorem sameLine_holds (b : Bounds) (room : Nat) (c : Expr) :
    Frames SameLine (Exec.holds b room c) :=
  (sameLine_value b room c).bind fun _ => .pure _

/-- Where nothing is behind a step, only the step can exhaust the stack. -/
theorem Watch.sequence_during (x : Activity) (p : Exec α) :
    sequence p (during x p) (fun _ => idle) = during x p := by
  funext m
  unfold sequence during
  cases p m <;> rfl

/-- What was going on fits the outcome: it is told exactly if the stack is exhausted, and the line of
the machine is then one that can be noted there. Behind a result the line satisfies `Q`. -/
inductive Fits (Q : Int → Prop) : EStateM.Result Halt Machine α → Option Activity → Prop where
  | ok {a : α} {m : Machine} (h : Q m.line) : Fits Q (.ok a m) none
  | overflow {m : Machine} {x : Activity} (h : x.Notes m.line) :
      Fits Q (.error .overflow m) (some x)
  | error {e : Halt} {m : Machine} (h : e ≠ .overflow) : Fits Q (.error e m) none

/-- If the stack is exhausted, the watch tells what was going on. -/
theorem Fits.exists_activity {Q : Int → Prop} {m : Machine} {o : Option Activity}
    (h : Fits Q (.error .overflow m : EStateM.Result Halt Machine α) o) :
    ∃ x, o = some x ∧ x.Notes m.line := by
  cases h with
  | overflow hx => exact ⟨_, rfl, hx⟩
  | error hne => exact absurd rfl hne

/-- What the watch tells fits the outcome on every machine of which the line satisfies `P`. -/
def Located (P : Int → Prop) (p : Exec α) (w : Watch) (Q : Int → Prop) : Prop :=
  ∀ m, P m.line → Fits Q (p m) (w m)

namespace Located

variable {P Q R : Int → Prop} {p : Exec α} {f : α → Exec β} {w w' : Watch} {later : α → Watch}
  {x : Activity}

theorem mono {P' Q' : Int → Prop} (h : Located P p w Q) (hP : ∀ l, P' l → P l)
    (hQ : ∀ l, Q l → Q' l) : Located P' p w Q' := by
  intro m hm
  have hfits := h m (hP _ hm)
  generalize p m = r, w m = o at hfits
  cases hfits with
  | ok h => exact .ok (hQ _ h)
  | overflow h => exact .overflow h
  | error h => exact .error h

theorem bind (hp : Located P p w Q) (hf : ∀ a, Located Q (f a) (later a) R) :
    Located P (p >>= f) (Watch.sequence p w later) R := by
  intro m hm
  have hfits := hp m hm
  unfold Watch.sequence
  generalize hr : p m = r, w m = o at hfits
  cases hfits with
  | @ok a m₁ h =>
    rw [bind_of_ok hr]
    exact hf a m₁ h
  | overflow h =>
    rw [bind_of_error hr]
    exact .overflow h
  | error h =>
    rw [bind_of_error hr]
    exact .error h

theorem pure (a : α) : Located P (pure a) .idle P := fun _ hm => .ok hm

theorem throw {e : Halt} (he : e ≠ .overflow) : Located P (throw e : Exec α) .idle Q :=
  fun _ _ => .error he

theorem choice {q : Exec α} (hp : Located P p w Q) (hq : Located P q w' Q) (v : Bool) :
    Located P (if v then p else q) (if v then w else w') Q := by
  cases v with
  | true => exact hp
  | false => exact hq

theorem start {line : Int} (h : Located (· = line) p w Q) :
    Located P (Exec.start line >>= fun _ => p) (Watch.behind line w) Q :=
  fun _ _ => h _ rfl

theorem inScope {p : Exec Unit} (h : Located P p w Q) :
    Located P (Exec.inScope p) (Watch.inScope w) Q := by
  intro m hm
  have hfits := h { m with chain := m.chain.enter } hm
  unfold Exec.inScope Watch.inScope
  generalize p { m with chain := m.chain.enter } = r,
    w { m with chain := m.chain.enter } = o at hfits
  cases hfits with
  | ok h => exact .ok h
  | overflow h => exact .overflow h
  | error h => exact .error h

/-- While an expression is evaluated, the line is the one that was noted before. -/
theorem during (hp : Frames SameLine p) (hx : ∀ l, P l → x.Notes l) :
    Located P p (Watch.during x p) P := by
  intro m hm
  have hline := hp m
  unfold Watch.during
  cases hr : p m with
  | ok a m₁ =>
    rw [hr] at hline
    exact .ok (hline ▸ hm)
  | error h m₁ =>
    rw [hr] at hline
    cases h with
    | overflow => exact .overflow (hx _ (hline ▸ hm))
    | _ => exact .error nofun

theorem print (v : Value) : Located P (Exec.print v) .idle P := fun _ hm => .ok hm

theorem define (name : String) (v : Value) : Located P (Exec.define name v) .idle P :=
  fun _ hm => .ok hm

/-- An expression is evaluated, and what is done with its value cannot fail. -/
theorem evaluation (b : Bounds) (room : Nat) (e : Expr) {f : Value → Exec Unit}
    (hx : ∀ l, P l → x.Notes l) (hf : ∀ v, Located P (f v) .idle P) :
    Located P (Exec.value b room e >>= f) (Watch.during x (Exec.value b room e)) P := by
  rw [← Watch.sequence_during]
  exact (during (sameLine_value b room e) hx).bind hf

/-- A condition is watched, and so is what is done in either case. -/
theorem condition (b : Bounds) (room : Nat) (c : Expr) {p q : Exec Unit}
    (hx : ∀ l, P l → x.Notes l) (hp : Located P p w Q) (hq : Located P q w' Q) :
    Located P (Exec.holds b room c >>= fun v => if v then p else q)
      (Watch.choice (Exec.holds b room c) x w w') Q :=
  (during (sameLine_holds b room c) hx).bind fun v => hp.choice hq v

/-- A loop notes the lines of its body, unless it is at its first test. -/
theorem repeatWhile (b : Bounds) (room : Nat) (c : Expr) {body : Exec Unit} {within : Watch}
    {again : Activity} (hagain : ∀ l, Q l → again.Notes l) (hbody : Located Q body within Q)
    (turns : Nat) (hx : ∀ l, P l → x.Notes l) (hfirst : Located P body within Q) :
    Located P (Exec.repeatWhile (Exec.holds b room c) body turns)
      (Watch.loop (Exec.holds b room c) body within again turns x) (fun l => P l ∨ Q l) := by
  induction turns generalizing P x with
  | zero => exact fun _ _ => .error nofun
  | succ turns ih =>
    have hlater := ih hagain hbody
    refine .condition b room c hx (hfirst.bind fun _ => ?_) ?_
    · exact hlater.mono (fun _ h => h) fun l h => .inr (h.elim id id)
    · exact (Located.pure ()).mono (fun _ h => h) fun l h => .inl h

end Located

/-! ## Statements -/

namespace Stmt

/-- In front of a statement that is a part of `around`: if there is no room for it, then the line is
the one of `around`, which was started last. -/
def Before (around : Option Stmt) (room : Nat) (l : Int) : Prop :=
  room = 0 → ∀ s, around = some s → l = s.line

/-- Among the lines of the given statements. -/
def Among (ss : List Stmt) (l : Int) : Prop := ∃ t ∈ ss, l = t.line

theorem Among.mono {ss ts : List Stmt} {l : Int} (h : Among ss l) (hsub : ss ⊆ ts) :
    Among ts l := by
  obtain ⟨t, ht, hl⟩ := h
  exact ⟨t, hsub ht, hl⟩

section

variable {s : Stmt} {room : Nat} {l : Int}

theorem before_of_line (h : l = s.line) : Before (some s) room l := by
  rintro - t ⟨⟩
  exact h

/-- The line of a statement is among those of its parts. -/
theorem among_of_line (h : l = s.line) : Among s.parts l := by
  refine ⟨s, ?_, h⟩
  cases s <;> exact List.mem_cons_self

end

/-- A statement first of all notes its own line. -/
theorem located_started {P Q : Int → Prop} {p : Exec α} {w : Watch} (s : Stmt) {room : Nat}
    (h : Located (· = s.line) p w Q) (hQ : ∀ l, Q l → Among s.parts l) :
    Located P (Exec.start s.line >>= fun _ => p) (Watch.behind s.line w)
      (fun l => room + 1 ≠ 0 ∧ Among s.parts l) :=
  h.start.mono (fun _ h => h) fun l hl => ⟨Nat.succ_ne_zero room, hQ l hl⟩

mutual

/-- If the execution of a statement exhausts the stack, then the line that is noted fits what was
going on. If it comes to its end, then the line is the one of a statement that was executed. -/
theorem located_exec (b : Bounds) (around : Option Stmt) (room : Nat) (s : Stmt) :
    Located (Before around room) (s.exec b room) (s.watch b around room)
      (fun l => room ≠ 0 ∧ Among s.parts l) := by
  cases room with
  | zero =>
    rw [exec_zero]
    -- without room, the line is still the one that was noted around the statement
    intro m hm
    cases s <;> exact .overflow (hm rfl)
  | succ room =>
    cases s with
    | expression e line =>
      exact located_started (.expression e line)
        (.evaluation b room e (fun _ h => h) fun _ => .pure ()) fun _ => among_of_line
    | print e line =>
      exact located_started (.print e line)
        (.evaluation b room e (fun _ h => h) fun v => .print v) fun _ => among_of_line
    | declare name first line =>
      cases first with
      | none =>
        exact located_started (.declare name none line) (.define name.lexeme .nil)
          fun _ => among_of_line
      | some e =>
        exact located_started (.declare name (some e) line)
          (.evaluation b room e (fun _ h => h) fun v => .define name.lexeme v)
          fun _ => among_of_line
    | block body line =>
      have hbody := located_execAll b (some (.block body line)) room body
        (P := Among (parts (.block body line))) fun t ht => ⟨t, List.mem_cons_of_mem _ ht, rfl⟩
      -- the block has noted its own line before its first statement starts
      have hinside : Located (· = line) (Exec.inScope (execAll b room body)) _
          (Among (parts (.block body line))) :=
        hbody.inScope.mono (fun l hl => ⟨before_of_line hl, among_of_line hl⟩) fun _ h => h
      exact located_started (.block body line) hinside fun _ h => h
    | ifThen c s line =>
      have hs := located_exec b (some (.ifThen c s line)) room s
      have hthen : Located (· = line) (s.exec b room) _ (Among (parts (.ifThen c s line))) :=
        hs.mono (fun _ hl => before_of_line hl) fun _ hl => hl.2.mono (List.subset_cons_self _ _)
      -- where nothing is done, the line is still that of the conditional itself
      have helse : Located (· = line) (Pure.pure ()) _ (Among (parts (.ifThen c s line))) :=
        (Located.pure ()).mono (fun _ h => h) fun _ hl => among_of_line hl
      have hboth := Located.condition b room c (x := .evaluating (.ifThen c s line))
        (fun _ h => h) hthen helse
      exact located_started (.ifThen c s line) hboth fun _ h => h
    | ifElse c s t line =>
      have hs := located_exec b (some (.ifElse c s t line)) room s
      have ht := located_exec b (some (.ifElse c s t line)) room t
      have hthen : Located (· = line) (s.exec b room) _ (Among (parts (.ifElse c s t line))) :=
        hs.mono (fun _ hl => before_of_line hl) fun _ hl =>
          hl.2.mono fun u hu => List.mem_cons_of_mem _ (List.mem_append_left _ hu)
      have helse : Located (· = line) (t.exec b room) _ (Among (parts (.ifElse c s t line))) :=
        ht.mono (fun _ hl => before_of_line hl) fun _ hl =>
          hl.2.mono fun u hu => List.mem_cons_of_mem _ (List.mem_append_right _ hu)
      have hboth := Located.condition b room c (x := .evaluating (.ifElse c s t line))
        (fun _ h => h) hthen helse
      exact located_started (.ifElse c s t line) hboth fun _ h => h
    | loop c s line =>
      have hs := located_exec b (some (.loop c s line)) room s
      have hfirst : Located (· = line) (s.exec b room) _ fun l => room ≠ 0 ∧ Among s.parts l :=
        hs.mono (fun _ hl => before_of_line hl) fun _ h => h
      -- behind a turn there is room, so that it does not matter which line is noted
      have hturn : Located (fun l => room ≠ 0 ∧ Among s.parts l) (s.exec b room) _ _ :=
        hs.mono (fun l hl hroom => absurd hroom hl.1) fun _ h => h
      have hagain : ∀ l, room ≠ 0 ∧ Among s.parts l → (Activity.returning c s line).Notes l :=
        fun _ hl => hl.2
      have hturns := Located.repeatWhile b room c hagain hturn b.turns
        (x := .evaluating (.loop c s line)) (fun _ h => h) hfirst
      refine located_started (.loop c s line) hturns ?_
      rintro l (hl | hl)
      · exact among_of_line hl
      · exact hl.2.mono (List.subset_cons_self _ _)
    | malformed kind line =>
      have hthrow : Halt.unknownStatement kind line ≠ .overflow := nofun
      exact located_started (.malformed kind line) (.throw hthrow) fun _ => among_of_line

/-- Statements in a row are located one after another. -/
theorem located_execAll (b : Bounds) (around : Option Stmt) (room : Nat) (ss : List Stmt)
    {P : Int → Prop} (hP : ∀ t ∈ partsAll ss, P t.line) :
    Located (fun l => Before around room l ∧ P l) (execAll b room ss)
      (watchAll b around room ss) P := by
  cases ss with
  | nil => exact (Located.pure ()).mono (fun _ h => h) fun l h => h.2
  | cons s ss =>
    have hs : ∀ l, Among s.parts l → P l := by
      rintro l ⟨t, ht, rfl⟩
      exact hP t (List.mem_append_left _ ht)
    have hss : ∀ t ∈ partsAll ss, P t.line := fun t ht => hP t (List.mem_append_right _ ht)
    refine ((located_exec b around room s).mono (fun l h => h.1) fun l h => ?_).bind fun _ =>
      located_execAll b around room ss hss
    exact ⟨fun hroom => absurd hroom h.1, hs l h.2⟩

end

end Stmt

end LoxScript
