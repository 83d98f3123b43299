import Mathlib.Logic.Relation
import Mathlib.Tactic.Choose
import LoxScript.Proofs.Machine.Endings

/-!
# Granting more turns

Every loop is granted the same number of turns, and execution breaks off as unfinished where a loop
would go on. Any other outcome stays the same when more turns are granted (`steady_exec`). So for a
given statement and a given machine there are two cases: either the outcome is the same for every
number of turns that is large enough, or the execution is unfinished for every number.

In the second case the execution comes to one loop that would never stop: each turn of it comes to its
end, and the next one begins (`Stmt.Diverges`). It cannot be that merely longer and longer loops are
met, since only a loop that never stops meets loops without end.
-/

namespace LoxScript

variable {α β : Type}

/-- The same bounds with another number of turns. -/
def Bounds.granting (b : Bounds) (turns : Nat) : Bounds := { b with turns := turns }

/-- Whether an outcome is due to the number of turns. -/
def Unfinished (r : EStateM.Result Halt Machine α) : Prop := ∃ m, r = .error .unfinished m

theorem not_unfinished_ok (a : α) (m : Machine) :
    ¬ Unfinished (.ok a m : EStateM.Result Halt Machine α) := by
  rintro ⟨m', h⟩
  cases h

@[simp] theorem unfinished_error_iff {e : Halt} {m : Machine} :
    Unfinished (.error e m : EStateM.Result Halt Machine α) ↔ e = .unfinished := by
  constructor
  · rintro ⟨m', h⟩
    cases h
    rfl
  · rintro rfl
    exact ⟨m, rfl⟩

/-- An outcome that is not due to the number of turns stays the same when more are granted. -/
def Steady (p : Nat → Exec α) : Prop :=
  ∀ n k m, n ≤ k → ¬ Unfinished (p n m) → p k m = p n m

namespace Steady

variable {p : Nat → Exec α}

theorem const (p : Exec α) : Steady fun _ => p := fun _ _ _ _ _ => rfl

theorem bind {f : α → Nat → Exec β} (hp : Steady p) (hf : ∀ a, Steady (f a)) :
    Steady fun n => p n >>= fun a => f a n := by
  intro n k m hnk hr
  dsimp only at hr ⊢
  cases h : p n m with
  | ok a m₁ =>
    have hk : p k m = .ok a m₁ := by
      rw [hp n k m hnk (by rw [h]; exact not_unfinished_ok a m₁), h]
    rw [bind_of_ok h] at hr ⊢
    rw [bind_of_ok hk]
    exact hf a n k m₁ hnk hr
  | error e m₁ =>
    rw [bind_of_error h, unfinished_error_iff] at hr
    have hk : p k m = .error e m₁ := by
      rw [hp n k m hnk (by rw [h, unfinished_error_iff]; exact hr), h]
    rw [bind_of_error h, bind_of_error hk]

theorem inScope {p : Nat → Exec Unit} (hp : Steady p) : Steady fun n => Exec.inScope (p n) := by
  intro n k m hnk hr
  have hbody : ¬ Unfinished (p n { m with chain := m.chain.enter }) := by
    rintro ⟨m', h⟩
    refine hr ⟨{ m' with chain := m'.chain.leave }, ?_⟩
    simp only [Exec.inScope, h]
  simp only [Exec.inScope, hp n k _ hnk hbody]

/-- A loop whose parts are steady: more turns may be granted to the loop and to its body. -/
theorem repeatWhile_le {test : Exec Bool} {body : Nat → Exec Unit} (hb : Steady body)
    {n k : Nat} (hnk : n ≤ k) {i j : Nat} (hij : i ≤ j) (m : Machine)
    (hr : ¬ Unfinished (Exec.repeatWhile test (body n) i m)) :
    Exec.repeatWhile test (body k) j m = Exec.repeatWhile test (body n) i m := by
  induction i generalizing j m with
  | zero => exact absurd ⟨m, rfl⟩ hr
  | succ i ih =>
    obtain ⟨j, rfl⟩ : ∃ j', j = j' + 1 := ⟨j - 1, by omega⟩
    have hij' : i ≤ j := by omega
    rw [Exec.repeatWhile] at hr ⊢
    refine bind_congr_at rfl fun goes m₁ htest => ?_
    rw [bind_of_ok htest] at hr
    cases goes with
    | false => rfl
    | true =>
      rw [if_pos rfl] at hr ⊢
      rw [if_pos rfl]
      have hbody : body k m₁ = body n m₁ := by
        refine hb n k m₁ hnk ?_
        rintro ⟨m', h⟩
        exact hr ⟨m', bind_of_error h⟩
      refine bind_congr_at hbody fun u m₂ h₂ => ih hij' m₂ ?_
      rwa [bind_of_ok h₂] at hr

/-- A loop is steady if its body is, as it is granted the more turns itself. -/
theorem repeatWhile (test : Exec Bool) {body : Nat → Exec Unit} (hb : Steady body) :
    Steady fun n => Exec.repeatWhile test (body n) n :=
  fun _ _ m hnk hr => repeatWhile_le hb hnk hnk m hr

end Steady

mutual

/-- An outcome stays the same when all loops of a statement are granted more turns. -/
theorem steady_exec (b : Bounds) (room : Nat) (s : Stmt) :
    Steady fun n => s.exec (b.granting n) room := by
  cases room with
  | zero =>
    simp only [exec_zero]
    exact .const _
  | succ room =>
    cases s with
    | expression e line => exact .const ((Stmt.expression e line).exec b (room + 1))
    | print e line => exact .const ((Stmt.print e line).exec b (room + 1))
    | declare name first line =>
      cases first with
      | none => exact .const ((Stmt.declare name none line).exec b (room + 1))
      | some e => exact .const ((Stmt.declare name (some e) line).exec b (room + 1))
    | block body line =>
      exact .bind (.const (Exec.start line)) fun _ => .inScope (steady_execAll b room body)
    | ifThen c s line =>
      refine .bind (.const (Exec.start line)) fun _ => .bind (.const (Exec.holds b room c)) fun v => ?_
      cases v with
      | true => exact steady_exec b room s
      | false => exact .const _
    | ifElse c s t line =>
      refine .bind (.const (Exec.start line)) fun _ => .bind (.const (Exec.holds b room c)) fun v => ?_
      cases v with
      | true => exact steady_exec b room s
      | false => exact steady_exec b room t
    | loop c s line =>
      exact .bind (.const (Exec.start line)) fun _ =>
        .repeatWhile (Exec.holds b room c) (steady_exec b room s)
    | malformed kind line => exact .const ((Stmt.malformed kind line).exec b (room + 1))

theorem steady_execAll (b : Bounds) (room : Nat) (ss : List Stmt) :
    Steady fun n => Stmt.execAll (b.granting n) room ss := by
  cases ss with
  | nil => exact .const (Stmt.execAll b room [])
  | cons s ss => exact .bind (steady_exec b room s) fun _ => steady_execAll b room ss

end

/-! ## The two cases -/

/-- With enough turns, the execution of `p` on `m` has the outcome `r`. -/
def Settles (p : Nat → Exec α) (m : Machine) (r : EStateM.Result Halt Machine α) : Prop :=
  ¬ Unfinished r ∧ ∃ n, ∀ k, n ≤ k → p k m = r

/-- No number of turns is enough for the execution of `p` on `m`. -/
def Forever (p : Nat → Exec α) (m : Machine) : Prop := ∀ n, Unfinished (p n m)

section

variable {p : Nat → Exec α} {f : α → Nat → Exec β} {m : Machine}

/-- An outcome that is not for want of turns is the one for all larger numbers. -/
theorem Steady.settles (hp : Steady p) {n : Nat} (h : ¬ Unfinished (p n m)) :
    Settles p m (p n m) :=
  ⟨h, n, fun k hnk => hp n k m hnk h⟩

/-- There are the two cases, and no other one. -/
theorem Steady.settles_or_forever (hp : Steady p) (m : Machine) :
    (∃ r, Settles p m r) ∨ Forever p m := by
  by_cases h : Forever p m
  · exact .inr h
  · obtain ⟨n, hn⟩ := not_forall.mp h
    exact .inl ⟨p n m, hp.settles hn⟩

/-- If a sequence goes on for ever, then its first step does, or that one has a result and the second
step goes on for ever. -/
theorem Forever.cases (hp : Steady p) (hf : ∀ a, Steady (f a))
    (h : Forever (fun n => p n >>= fun a => f a n) m) :
    Forever p m ∨ ∃ a m₁, Settles p m (.ok a m₁) ∧ Forever (f a) m₁ := by
  rcases hp.settles_or_forever m with ⟨r, hr⟩ | hforever
  · obtain ⟨hfinished, n, hn⟩ := hr
    cases r with
    | ok a m₁ =>
      refine .inr ⟨a, m₁, ⟨hfinished, n, hn⟩, fun k => ?_⟩
      -- the second step is looked at with enough turns for the first one
      by_contra hk
      have hmore := hf a k (max n k) m₁ (Nat.le_max_right n k) hk
      have hwhole := h (max n k)
      dsimp only at hwhole
      rw [bind_of_ok (hn _ (Nat.le_max_left n k)), hmore] at hwhole
      exact hk hwhole
    | error e m₁ =>
      have hwhole := h n
      dsimp only at hwhole
      rw [bind_of_error (hn n (Nat.le_refl n)), unfinished_error_iff] at hwhole
      rw [unfinished_error_iff] at hfinished
      exact absurd hwhole hfinished
  · exact .inl hforever

theorem Forever.inScope {p : Nat → Exec Unit} (h : Forever (fun n => Exec.inScope (p n)) m) :
    Forever p { m with chain := m.chain.enter } := by
  intro n
  obtain ⟨m', hm'⟩ := h n
  simp only [Exec.inScope] at hm'
  split at hm'
  · cases hm'
  · next halt m₁ hbody =>
    cases hm'
    exact ⟨m₁, hbody⟩

end

/-! ## Loops that go on for ever -/

namespace Exec

variable {test : Exec Bool} {body : Nat → Exec Unit}

/-- A whole turn of a loop leads from one machine to the other. -/
def Turn (test : Exec Bool) (body : Nat → Exec Unit) (m m' : Machine) : Prop :=
  ∃ m₁, test m = .ok true m₁ ∧ Settles body m₁ (.ok () m')

/-- A loop that never stops turning: these are the machines before each of its turns. -/
def Endless (test : Exec Bool) (body : Nat → Exec Unit) (m : Machine) : Prop :=
  ∃ before : Nat → Machine, before 0 = m ∧ ∀ i, Turn test body (before i) (before (i + 1))

/-- No number of turns is enough, whether it is granted to the loop or to its body. -/
def Unending (test : Exec Bool) (body : Nat → Exec Unit) (m : Machine) : Prop :=
  ∀ n i, Unfinished (repeatWhile test (body n) i m)

/-- A loop that goes on for ever takes one turn after the other without an end. -/
theorem unending_of_forever (hb : Steady body) {m : Machine}
    (h : Forever (fun n => repeatWhile test (body n) n) m) : Unending test body m := by
  intro n i
  by_contra hr
  have hmore := Steady.repeatWhile_le hb (Nat.le_max_left n i) (Nat.le_max_right n i) m hr
  have hwhole := h (max n i)
  dsimp only at hwhole
  rw [hmore] at hwhole
  exact hr hwhole

/-- An unending loop goes through a turn and is unending behind it, unless its body goes on for
ever. -/
theorem Unending.step (ht : Breaks test (· ≠ .unfinished)) (hb : Steady body) {m : Machine}
    (h : Unending test body m) :
    ∃ m₁, test m = .ok true m₁ ∧
      (Forever body m₁ ∨ ∃ m', Settles body m₁ (.ok () m') ∧ Unending test body m') := by
  have hloop : ∀ n i, Unfinished ((do if ← test then body n; repeatWhile test (body n) i) m) :=
    fun n i => h n (i + 1)
  cases htest : test m with
  | error e m₁ =>
    obtain ⟨m', hm'⟩ := hloop 0 0
    rw [bind_of_error htest] at hm'
    cases hm'
    exact absurd rfl (ht m _ _ htest)
  | ok goes m₁ =>
    cases goes with
    | false =>
      obtain ⟨m', hm'⟩ := hloop 0 0
      rw [bind_of_ok htest] at hm'
      cases hm'
    | true =>
      have hturn : ∀ n i, Unfinished ((do body n; repeatWhile test (body n) i) m₁) := by
        intro n i
        have hn := hloop n i
        rw [bind_of_ok htest, if_pos rfl] at hn
        exact hn
      refine ⟨m₁, rfl, ?_⟩
      rcases hb.settles_or_forever m₁ with ⟨r, hfinished, n, hn⟩ | hforever
      · cases r with
        | error e m₂ =>
          have hwhole := hturn n 0
          rw [bind_of_error (hn n (Nat.le_refl n))] at hwhole
          exact absurd hwhole hfinished
        | ok u m₂ =>
          refine .inr ⟨m₂, ⟨hfinished, n, hn⟩, fun k i => ?_⟩
          -- a number of turns with which the rest ends would do for the whole loop
          by_contra hr
          have hmore := Steady.repeatWhile_le hb (Nat.le_max_right n k) (Nat.le_refl i) m₂ hr
          have hwhole := hturn (max n k) i
          rw [bind_of_ok (hn _ (Nat.le_max_left n k)), hmore] at hwhole
          exact hr hwhole
      · exact .inl hforever

/-- A loop goes on for ever only if it never stops turning, or if its body goes on for ever in a
turn that it comes to. -/
theorem Unending.cases (ht : Breaks test (· ≠ .unfinished)) (hb : Steady body) {m : Machine}
    (h : Unending test body m) :
    Endless test body m ∨
      ∃ m' m₁, Relation.ReflTransGen (Turn test body) m m' ∧ test m' = .ok true m₁ ∧
        Forever body m₁ := by
  by_cases hbody : ∃ m' m₁, Relation.ReflTransGen (Turn test body) m m' ∧ test m' = .ok true m₁ ∧
      Forever body m₁
  · exact .inr hbody
  · -- behind every machine that the loop comes to, it goes through one more turn
    have hnext : ∀ x : { m' // Relation.ReflTransGen (Turn test body) m m' ∧ Unending test body m' },
        ∃ y : { m' // Relation.ReflTransGen (Turn test body) m m' ∧ Unending test body m' },
          Turn test body x.1 y.1 := by
      rintro ⟨m', hreach, hm'⟩
      obtain ⟨m₁, htest, hforever | ⟨m₂, hsettles, hunending⟩⟩ := hm'.step ht hb
      · exact absurd ⟨m', m₁, hreach, htest, hforever⟩ hbody
      · have hturn : Turn test body m' m₂ := ⟨m₁, htest, hsettles⟩
        exact ⟨⟨m₂, hreach.tail hturn, hunending⟩, hturn⟩
    choose next hturn using hnext
    refine .inl ⟨fun i => (next^[i] ⟨m, .refl, h⟩).1, rfl, fun i => ?_⟩
    dsimp only
    rw [Function.iterate_succ_apply']
    exact hturn _

end Exec

/-! ## Statements that go on for ever -/

namespace Stmt

mutual

/-- The execution of a statement comes to a loop that never stops turning. -/
inductive Diverges (b : Bounds) : Nat → Stmt → Machine → Prop where
  | block {room : Nat} {body : List Stmt} {line : Int} {m : Machine}
      (h : DivergesAll b room body { m with line := line, chain := m.chain.enter }) :
      Diverges b (room + 1) (block body line) m
  | ifThen {room : Nat} {c : Expr} {s : Stmt} {line : Int} {m m₁ : Machine}
      (hc : Exec.holds b room c { m with line := line } = .ok true m₁) (h : Diverges b room s m₁) :
      Diverges b (room + 1) (ifThen c s line) m
  | ifElse {room : Nat} {c : Expr} {s t : Stmt} {line : Int} {m m₁ : Machine} {v : Bool}
      (hc : Exec.holds b room c { m with line := line } = .ok v m₁)
      (h : Diverges b room (if v then s else t) m₁) :
      Diverges b (room + 1) (ifElse c s t line) m
  | endless {room : Nat} {c : Expr} {s : Stmt} {line : Int} {m : Machine}
      (h : Exec.Endless (Exec.holds b room c) (fun n => s.exec (b.granting n) room)
        { m with line := line }) :
      Diverges b (room + 1) (loop c s line) m
  | turn {room : Nat} {c : Expr} {s : Stmt} {line : Int} {m m' m₁ : Machine}
      (hturns : Relation.ReflTransGen
        (Exec.Turn (Exec.holds b room c) fun n => s.exec (b.granting n) room)
        { m with line := line } m')
      (hc : Exec.holds b room c m' = .ok true m₁) (h : Diverges b room s m₁) :
      Diverges b (room + 1) (loop c s line) m

/-- The execution of statements comes to a loop that never stops turning. -/
inductive DivergesAll (b : Bounds) : Nat → List Stmt → Machine → Prop where
  | head {room : Nat} {s : Stmt} {ss : List Stmt} {m : Machine} (h : Diverges b room s m) :
      DivergesAll b room (s :: ss) m
  | tail {room : Nat} {s : Stmt} {ss : List Stmt} {m m₁ : Machine}
      (hs : Settles (fun n => s.exec (b.granting n) room) m (.ok () m₁))
      (h : DivergesAll b room ss m₁) : DivergesAll b room (s :: ss) m

end

end Stmt

/-- What never breaks off for want of turns does not go on for ever. -/
theorem not_forever_const {p : Exec α} (hp : Breaks p (· ≠ .unfinished)) (m : Machine) :
    ¬ Forever (fun _ => p) m := by
  intro h
  obtain ⟨m', hm'⟩ := h 0
  exact hp m _ m' hm' rfl

/-- If a step that is no loop comes first, then what goes on for ever is the second step. -/
theorem Forever.behind {p : Exec α} {f : α → Nat → Exec β} {m : Machine}
    (hp : Breaks p (· ≠ .unfinished)) (hf : ∀ a, Steady (f a))
    (h : Forever (fun n => p >>= fun a => f a n) m) :
    ∃ a m₁, p m = .ok a m₁ ∧ Forever (f a) m₁ := by
  rcases Forever.cases (.const p) hf h with hfirst | ⟨a, m₁, ⟨-, n, hn⟩, hsecond⟩
  · exact absurd hfirst (not_forever_const hp m)
  · exact ⟨a, m₁, hn n (Nat.le_refl n), hsecond⟩

/-- A condition never breaks off for want of turns. -/
theorem finished_holds (b : Bounds) (room : Nat) {c : Expr} (hc : c.WellBuilt) :
    Breaks (Exec.holds b room c) (· ≠ .unfinished) := by
  intro m h m₁ hr
  rcases breaks_holds b room hc m h m₁ hr with ⟨e, rfl⟩ | rfl <;> simp

/-- Apart from its loops, a statement comes to an end. -/
theorem finished_simple {b : Bounds} {room : Nat} {s : Stmt} {p : Exec Unit} {line : Int}
    (hp : Breaks p Halt.Ordinary) (m : Machine)
    (hs : ∀ n, s.exec (b.granting n) room = (do Exec.start line; p)) :
    ¬ Forever (fun n => s.exec (b.granting n) room) m := by
  simp only [hs]
  refine not_forever_const (fun m h m₁ hr => ?_) m
  rcases (breaks_start line).bind (fun _ => hp) m h m₁ hr with ⟨e, rfl⟩ | rfl <;> simp

/-- If a conditional goes on for ever, then so does the branch that its condition takes. -/
theorem Forever.branch {b : Bounds} {room : Nat} {c : Expr} {line : Int} {p q : Nat → Exec Unit}
    {m : Machine} (hc : c.WellBuilt) (hp : Steady p) (hq : Steady q)
    (h : Forever (fun n => do
      Exec.start line
      if ← Exec.holds b room c then p n else q n) m) :
    ∃ v m₁, Exec.holds b room c { m with line := line } = .ok v m₁ ∧
      Forever (if v then p else q) m₁ := by
  have hsteady : ∀ v : Bool, Steady fun n => if v = true then p n else q n := by
    rintro (_ | _)
    · exact hq
    · exact hp
  obtain ⟨u, m₁, hstart, h₁⟩ := Forever.behind (p := Exec.start line) (breaks_start line)
    (fun _ => .bind (.const (Exec.holds b room c)) hsteady) h
  cases hstart
  obtain ⟨v, m₂, hv, h₂⟩ := Forever.behind (finished_holds b room hc) hsteady h₁
  refine ⟨v, m₂, hv, ?_⟩
  cases v with
  | false => exact h₂
  | true => exact h₂

mutual

/-- If no number of turns is enough for a statement, then it comes to a loop that never stops. -/
theorem diverges_of_forever (b : Bounds) (room : Nat) (s : Stmt) (hs : s.WellBuilt) {m : Machine}
    (h : Forever (fun n => s.exec (b.granting n) room) m) : s.Diverges b room m := by
  cases room with
  | zero =>
    simp only [exec_zero] at h
    exact absurd h (not_forever_const (.throw (by simp)) m)
  | succ room =>
    cases s with
    | expression e line =>
      exact absurd h (finished_simple ((breaks_value b room hs).bind fun _ => .pure ()) m fun _ => rfl)
    | print e line =>
      exact absurd h
        (finished_simple ((breaks_value b room hs).bind fun v => breaks_print v) m fun _ => rfl)
    | declare name first line =>
      cases first with
      | none => exact absurd h (finished_simple (breaks_define name.lexeme .nil) m fun _ => rfl)
      | some e =>
        exact absurd h (finished_simple
          ((breaks_value b room (hs e rfl)).bind fun v => breaks_define name.lexeme v) m fun _ => rfl)
    | block body line =>
      obtain ⟨u, m₁, hstart, hbody⟩ := Forever.behind (p := Exec.start line) (breaks_start line)
        (fun _ => .inScope (steady_execAll b room body)) h
      cases hstart
      exact .block (divergesAll_of_forever b room body hs hbody.inScope)
    | ifThen c s line =>
      obtain ⟨v, m₁, hv, h₁⟩ := Forever.branch hs.1 (steady_exec b room s) (.const (pure ())) h
      cases v with
      | false => exact absurd h₁ (not_forever_const (.pure ()) m₁)
      | true => exact .ifThen hv (diverges_of_forever b room s hs.2 h₁)
    | ifElse c s t line =>
      obtain ⟨v, m₁, hv, h₁⟩ := Forever.branch hs.1 (steady_exec b room s) (steady_exec b room t) h
      cases v with
      | false => exact .ifElse hv (diverges_of_forever b room t hs.2.2 h₁)
      | true => exact .ifElse hv (diverges_of_forever b room s hs.2.1 h₁)
    | loop c s line =>
      obtain ⟨hc, hs⟩ := hs
      have hbody := steady_exec b room s
      obtain ⟨u, m₁, hstart, hloop⟩ := Forever.behind (p := Exec.start line) (breaks_start line)
        (fun _ => .repeatWhile (Exec.holds b room c) hbody) h
      cases hstart
      -- either no turn of the loop goes on for ever itself, or there is a first one that does
      have hunending := Exec.unending_of_forever hbody hloop
      rcases hunending.cases (finished_holds b room hc) hbody with hendless | ⟨m', m₁, hturns, hv, h₁⟩
      · exact .endless hendless
      · exact .turn hturns hv (diverges_of_forever b room s hs h₁)
    | malformed kind line => exact hs.elim

theorem divergesAll_of_forever (b : Bounds) (room : Nat) (ss : List Stmt)
    (hss : Stmt.WellBuiltAll ss) {m : Machine}
    (h : Forever (fun n => Stmt.execAll (b.granting n) room ss) m) : Stmt.DivergesAll b room ss m := by
  cases ss with
  | nil => exact absurd h (not_forever_const (.pure ()) m)
  | cons s ss =>
    rcases Forever.cases (steady_exec b room s) (fun _ => steady_execAll b room ss) h with
      hfirst | ⟨u, m₁, hsettles, hrest⟩
    · exact .head (diverges_of_forever b room s hss.1 hfirst)
    · exact .tail hsettles (divergesAll_of_forever b room ss hss.2 hrest)

end

end LoxScript
