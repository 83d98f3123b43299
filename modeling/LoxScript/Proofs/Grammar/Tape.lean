import LoxScript.Proofs.Flag
import LoxScript.Proofs.Grammar.Position

/-!
# Reading by position

The grammar once more, this time on a tape: a list of tokens and the position of the token to come.
Every token is looked up by its index in the list, and a step breaks off if there is no token at
that index (`Tape.Fault.outside`). Every loop is granted one turn more than there are tokens, and it
breaks off as well if it needs yet another one (`Tape.Fault.unfinished`). Whether a token is at hand,
and when a loop is over, is in no way built into the data.

An error is reported by one step and its flag set by another one (`Tape.note`), and so is the flag of a
declaration that is dropped. Whether the flags agree with the reports is not built into the data
either.

A tape stands for the state whose cursor is at its position (`Tape.state`). It is in order if there
is an end mark on it, the position is not behind the first one, and the flags agree with the reports
(`Tape.InOrder`); then there are tokens to look at, and the tape is in order again behind a token that
can be passed (`Tape.InOrder.next`) and behind an error that is noted (`Tape.InOrder.noted`).
-/

namespace LoxScript

/-- A list of tokens that is read by position. -/
structure Tape where
  tokens : List Token
  /-- The position of the token to come. -/
  position : Nat
  /-- The errors reported so far, in order. -/
  noted : List SyntaxError
  /-- The flag that is set wherever an error is reported. -/
  failed : Bool
  /-- Whether a declaration had to be dropped. -/
  panicked : Bool

namespace Tape

/-- The tape before anything is read. -/
def ofTokens (ts : List Token) : Tape := ⟨Cursor.closed ts, 0, [], false, false⟩

/-- Why a step on a tape breaks off. -/
inductive Fault where
  /-- There is a syntax error. -/
  | broken (e : SyntaxError)
  /-- There is no token at an index that is looked up. -/
  | outside (index : Int)
  /-- A loop is not over after all turns that it is granted. -/
  | unfinished

/-- A step on a tape. -/
abbrev Step := EStateM Fault Tape

/-! ## Single tokens -/

/-- The token at an index. A negative index counts from the end of the list. -/
def item? (ts : List Token) : (index : Int) → Option Token
  | .ofNat n => ts[n]?
  | .negSucc n => ts.reverse[n]?

/-- Looks up the token at an index. -/
def item (index : Int) : Step Token := fun t =>
  match item? t.tokens index with
  | some u => .ok u t
  | none => .error (.outside index) t

/-- The token to come. -/
def current : Step Token := fun t => item t.position t

/-- The token read last. In front of the first token the index is -1, that of the last one. -/
def previous : Step Token := fun t => item (t.position - 1) t

/-- Whether the token to come is an end mark. -/
def atEnd : Step Bool := do return (← current).kind == .endMark

/-- Whether the token to come has the given kind. This never holds of an end mark. -/
def check (kind : TokenKind) : Step Bool := do
  if ← atEnd then return false
  else return (← current).kind == kind

/-- The tape at the next position. -/
def next (t : Tape) : Tape := { t with position := t.position + 1 }

/-- Passes the token to come, unless it is an end mark, and gives the token read last. -/
def advance : Step Token := do
  if ← atEnd then previous
  else
    modify next
    previous

/-- Passes the token to come, if it has one of the given kinds, and tells whether it has. -/
def accept : (kinds : List TokenKind) → Step Bool
  | [] => return false
  | kind :: kinds => do
    if ← check kind then
      let _ ← advance
      return true
    else accept kinds

/-- Breaks off and blames the token to come. -/
def fail {α : Type} (cause : SyntaxCause) : Step α := do throw (.broken ⟨← current, cause⟩)

/-- Passes the token to come and gives it, if it has the given kind; otherwise breaks off. -/
def expect (kind : TokenKind) (cause : SyntaxCause) : Step Token := do
  if ← check kind then advance
  else fail cause

/-- Sets the flag of an error. -/
def setFailed : Step Unit := modify fun t => { t with failed := true }

/-- Hands an error over to be reported. -/
def report (e : SyntaxError) : Step Unit := modify fun t => { t with noted := t.noted ++ [e] }

/-- Notes an error: sets the flag, and reports the error. -/
def note (e : SyntaxError) : Step Unit := do
  setFailed
  report e

/-- Sets the flag of a declaration that is dropped. -/
def setPanicked : Step Unit := modify fun t => { t with panicked := true }

/-- The number of turns that a loop is granted. -/
def turns : Step Nat := fun t => .ok (t.tokens.length + 1) t

/-- Passes tokens up to a boundary, in as many turns at most. -/
def pass : (fuel : Nat) → Step Unit
  | 0 => throw .unfinished
  | fuel + 1 => do
    if ← atEnd then return ()
    else if (← previous).kind == .semicolon then return ()
    else if (← current).kind ∈ statementWords then return ()
    else
      let _ ← advance
      pass fuel

/-- Goes on to the next boundary. The token to come is passed in any case. -/
def synchronize : Step Unit := do
  let _ ← advance
  pass (← turns)

/-! ## Expressions -/

/-- A literal, a variable, or an expression in parentheses. -/
def primaryOf (inner : Step Expr) : Step Expr := do
  let t ← current
  if ← accept [.falseWord] then return .literal (.bool false) t.line
  else if ← accept [.trueWord] then return .literal (.bool true) t.line
  else if ← accept [.nilWord] then return .literal .nil t.line
  else if ← accept [.number, .text] then return .literal t.literal t.line
  else if ← accept [.identifier] then return .read t t.line
  else if ← accept [.leftParen] then
    let e ← inner
    let _ ← expect .rightParen (.expectRightParen .expression)
    return .grouping e t.line
  else throw (.broken ⟨t, .expectExpression⟩)

/-- Prefix operators in front of a primary expression. -/
def unaryOf (nested primary : Step Expr) : Step Expr := do
  if ← accept [.bang, .minus] then
    let op ← previous
    let e ← nested
    return .unary op e op.line
  else primary

/-- Folds operators that bind at `least` or more tightly onto the operand `left`, in as many turns
at most. -/
def climb (operand : Step Expr) : (fuel least : Nat) → (left : Expr) → Step Expr
  | 0, _, _ => throw .unfinished
  | fuel + 1, least, left => do
    match Tier.of? (← current).kind with
    | none => return left
    | some tier =>
      if tier.level < least then return left
      else
        let op ← advance
        let first ← operand
        let right ← climb operand fuel (tier.level + 1) first
        climb operand fuel least (tier.join left op right)

/-- Operands joined by operators that bind at `least` or more tightly. -/
def tiers (operand : Step Expr) (least : Nat) : Step Expr := do
  let left ← operand
  climb operand (← turns) least left

/-- An assignment, or what its left side is by itself. -/
def assignmentOf (target value : Step Expr) : Step Expr := do
  let left ← target
  if ← accept [.equal] then
    let sign ← previous
    let e ← value
    match left with
    | .read name _ => return .assign name e name.line
    | _ =>
      note ⟨sign, .invalidTarget⟩
      return left
  else return left

mutual

/-- Prefix operators in front of an operand. Each of them needs room. -/
def unary : (room : Nat) → Step Expr
  | 0 => fail .tooDeep
  | room + 1 => unaryOf (unary room) (primaryOf (expression room))

/-- An expression. -/
def expression : (room : Nat) → Step Expr
  | 0 => fail .tooDeep
  | room + 1 => assignmentOf (tiers (unary room) 1) (expression room)

end

/-! ## Statements -/

/-- An expression and a semicolon. -/
def expressionStatement (value : Step Expr) : Step Stmt := do
  let e ← value
  let _ ← expect .semicolon (.expectSemicolon .expression)
  return .expression e e.line

/-- A "print" statement behind its word. -/
def printStatement (value : Step Expr) : Step Stmt := do
  let word ← previous
  let e ← value
  let _ ← expect .semicolon (.expectSemicolon .value)
  return .print e word.line

/-- A variable declaration behind its word. -/
def variableDeclaration (value : Step Expr) : Step Stmt := do
  let name ← expect .identifier .expectName
  let first ← do
    if ← accept [.equal] then
      let e ← value
      pure (some e)
    else pure none
  let _ ← expect .semicolon (.expectSemicolon .declaration)
  return .declare name first name.line

/-- A variable declaration or a statement. -/
def declarationOf (value : Step Expr) (statement : Step Stmt) : Step Stmt := do
  if ← accept [.varWord] then variableDeclaration value
  else statement

/-- Declarations up to a closing brace or the end, in as many turns at most. -/
def declarations (declaration : Step Stmt) : (fuel : Nat) → Step (List Stmt)
  | 0 => throw .unfinished
  | fuel + 1 => do
    if ← check .rightBrace then return []
    else if ← atEnd then return []
    else
      let s ← declaration
      let later ← declarations declaration fuel
      return s :: later

/-- A block behind its opening brace. -/
def blockOf (declaration : Step Stmt) : Step (List Stmt) := do
  let body ← declarations declaration (← turns)
  let _ ← expect .rightBrace .expectBlockEnd
  return body

/-- A conditional behind its word. -/
def conditional (value : Step Expr) (statement : Step Stmt) : Step Stmt := do
  let word ← previous
  let _ ← expect .leftParen (.expectLeftParen .ifWord)
  let condition ← value
  let _ ← expect .rightParen (.expectRightParen .condition)
  let body ← statement
  if ← accept [.elseWord] then
    let other ← statement
    return .ifElse condition body other word.line
  else return .ifThen condition body word.line

/-- A "while" loop behind its word. -/
def whileLoop (value : Step Expr) (statement : Step Stmt) : Step Stmt := do
  let word ← previous
  let _ ← expect .leftParen (.expectLeftParen .whileWord)
  let condition ← value
  let _ ← expect .rightParen (.expectRightParen .condition)
  let body ← statement
  return .loop condition body word.line

/-- The first clause of a "for" loop, with its semicolon. -/
def firstClause (value : Step Expr) : Step (Option Stmt) := do
  if ← accept [.semicolon] then return none
  else if ← accept [.varWord] then
    let s ← variableDeclaration value
    return some s
  else
    let s ← expressionStatement value
    return some s

/-- An expression, unless the token to come has the given kind. -/
def optional (value : Step Expr) (kind : TokenKind) : Step (Option Expr) := do
  if ← check kind then return none
  else
    let e ← value
    return some e

/-- A "for" loop behind its word. -/
def forLoop (value : Step Expr) (statement : Step Stmt) : Step Stmt := do
  let word ← previous
  let _ ← expect .leftParen (.expectLeftParen .forWord)
  let first ← firstClause value
  let condition ← optional value .semicolon
  let _ ← expect .semicolon (.expectSemicolon .loopCondition)
  let step ← optional value .rightParen
  let _ ← expect .rightParen (.expectRightParen .forClauses)
  let body ← statement
  return .forLoop word.line ⟨first, condition, step⟩ body

/-- A statement, given how its parts are read. -/
def statementOf (value : Step Expr) (nested : Step Stmt) : Step Stmt := do
  let t ← current
  if ← accept [.forWord] then forLoop value nested
  else if ← accept [.ifWord] then conditional value nested
  else if ← accept [.printWord] then printStatement value
  else if ← accept [.whileWord] then whileLoop value nested
  else if ← accept [.leftBrace] then
    let body ← blockOf (declarationOf value nested)
    return .block body t.line
  else expressionStatement value

/-- A statement. Each one within another needs room. -/
def statement : (room : Nat) → Step Stmt
  | 0 => fail .tooDeep
  | room + 1 => statementOf (expression room) (statement room)

/-- A declaration, which may be a statement. -/
def declaration (room : Nat) : Step Stmt := declarationOf (expression room) (statement room)

/-! ## Programs -/

/-- A step whose syntax errors are results. Any other fault breaks it off. -/
def attempt {α : Type} (q : Step α) : Step (Except SyntaxError α) := fun t =>
  match q t with
  | .ok a t => .ok (.ok a) t
  | .error (.broken e) t => .ok (.error e) t
  | .error f t => .error f t

/-- Declarations up to the end, in as many turns at most; those that cannot be read are dropped. -/
def programOf (declaration : Step Stmt) : (fuel : Nat) → Step (List Stmt)
  | 0 => throw .unfinished
  | fuel + 1 => do
    if ← atEnd then return []
    else
      match ← attempt declaration with
      | .ok d =>
        let ds ← programOf declaration fuel
        return d :: ds
      | .error e =>
        note e
        setPanicked
        synchronize
        programOf declaration fuel

/-- The declarations up to the end. -/
def program (room : Nat) : Step (List Stmt) := do programOf (declaration room) (← turns)

/-! ## Choosing how to go on -/

section

variable {α : Type} {t t₁ : Tape} {c : Step Bool} {p q : Step α}

theorem choose_of_true (h : c t = .ok true t₁) :
    (c >>= fun b => if b = true then p else q) t = p t₁ := by
  rw [bind_of_ok h, if_pos rfl]

theorem choose_of_false (h : c t = .ok false t₁) :
    (c >>= fun b => if b = true then p else q) t = q t₁ := by
  rw [bind_of_ok h, if_neg Bool.false_ne_true]

theorem attempt_of_ok {a : α} (h : q t = .ok a t₁) : attempt q t = .ok (.ok a) t₁ := by
  unfold attempt
  rw [h]

/-- A syntax error is caught. -/
theorem attempt_of_broken {e : SyntaxError} (h : q t = .error (.broken e) t₁) :
    attempt q t = .ok (.error e) t₁ := by
  unfold attempt
  rw [h]

end

/-! ## A tape in order -/

/-- The state that a tape stands for. -/
def state (t : Tape) : ParseState := ⟨.seek t.tokens t.position, t.noted, t.panicked⟩

/-- There is an end mark on the tape, the position is not behind the first one, and the flags agree
with what was reported. -/
structure InOrder (t : Tape) : Prop where
  mark : t.tokens.findIdx (·.kind = .endMark) < t.tokens.length
  le_mark : t.position ≤ t.tokens.findIdx (·.kind = .endMark)
  /-- The flag of an error is set exactly if an error was reported. -/
  tells : Tells [] t.noted t.failed
  /-- Where a declaration was dropped, there was an error. -/
  failed_of_panicked : t.panicked = true → t.failed = true

/-- An error can be noted: its flag is set where it is reported. -/
theorem InOrder.noted {t : Tape} (h : t.InOrder) (e : SyntaxError) :
    InOrder { t with failed := true, noted := t.noted ++ [e] } :=
  ⟨h.mark, h.le_mark, h.tells.add e, fun _ => rfl⟩

/-- A declaration can be dropped behind an error. -/
theorem InOrder.dropped {t : Tape} (h : t.InOrder) (hfailed : t.failed = true) :
    InOrder { t with panicked := true } :=
  ⟨h.mark, h.le_mark, h.tells, fun _ => hfailed⟩

/-- At the start, the tape stands for the state at the start. -/
theorem state_ofTokens (ts : List Token) : (ofTokens ts).state = .ofTokens ts := by
  obtain ⟨n, u, hu, hk, hlength⟩ := Cursor.exists_mark ts
  have hlast : (Cursor.closed ts).getLast? = some u := by
    rw [List.getLast?_eq_getElem?, hlength]
    exact hu
  have hstop : ((Cursor.closed ts).find? (!Cursor.isProper ·)).isSome = true :=
    List.find?_isSome.mpr ⟨u, List.mem_of_getElem? hu, by simp [Cursor.isProper, hk]⟩
  obtain ⟨stop, hstop⟩ := Option.isSome_iff_exists.mp hstop
  simp [ofTokens, state, ParseState.ofTokens, Cursor.ofTokens, Cursor.seek, hstop, hlast]

/-- Any list makes a tape that is in order, as the end mark is added where it is missing. -/
theorem inOrder_ofTokens (ts : List Token) : (ofTokens ts).InOrder := by
  obtain ⟨n, u, hu, hk, -⟩ := Cursor.exists_mark ts
  exact ⟨List.findIdx_lt_length_of_exists ⟨u, List.mem_of_getElem? hu, by simpa using hk⟩,
    Nat.zero_le _, .start [], nofun⟩

namespace InOrder

variable {α : Type} {t : Tape} {u : Token} {us : List Token} {kind : TokenKind}

/-- The state is at the position of the tape. -/
theorem position_state (h : t.InOrder) : t.state.cursor.position = t.position :=
  Cursor.position_seek (Nat.le_trans h.le_mark (Nat.le_of_lt h.mark))

/-- There is a token at the position. -/
theorem getElem?_position (h : t.InOrder) :
    t.tokens[t.position]? = some t.state.cursor.current := by
  have hat := List.getElem?_eq_getElem (Nat.lt_of_le_of_lt h.le_mark h.mark)
  rw [hat]
  exact congrArg some (Cursor.current_seek hat).symm

/-- Where no token is to come, the position is that of an end mark. -/
theorem kind_of_end (h : t.InOrder) (hr : t.state.cursor.rest = []) :
    t.state.cursor.current.kind = .endMark := by
  by_contra hk
  have hseek : t.state.cursor = _ := Cursor.seek_of_proper h.getElem?_position hk
  rw [hseek] at hr
  cases hr

section

variable (h : t.InOrder) (hr : t.state.cursor.rest = u :: us)
include h hr

/-- The token to come is the one at the position. -/
theorem getElem?_of_cons : t.tokens[t.position]? = some u := by
  rw [h.getElem?_position, Cursor.current_of_cons hr]

/-- It is no end mark. -/
theorem kind_of_cons : u.kind ≠ .endMark := by
  intro hk
  have hend : t.state.cursor.rest = [] := (Cursor.seek_of_mark (h.getElem?_of_cons hr) hk).1
  rw [hr] at hend
  cases hend

/-- A token that is to come can be passed. -/
theorem next : t.next.InOrder := by
  have hne : t.position ≠ t.tokens.findIdx (·.kind = .endMark) := by
    intro hmark
    have hat := h.getElem?_of_cons hr
    have hk := List.findIdx_getElem (w := h.mark)
    rw [hmark, List.getElem?_eq_getElem h.mark] at hat
    rw [Option.some.inj hat] at hk
    exact h.kind_of_cons hr (of_decide_eq_true hk)
  exact ⟨h.mark, Nat.lt_of_le_of_ne h.le_mark hne, h.tells, h.failed_of_panicked⟩

/-- The next position stands for the state behind the token. -/
theorem state_next : t.next.state = t.state.advance := by
  unfold state ParseState.advance
  rw [Cursor.advance_seek (h.getElem?_of_cons hr) (h.kind_of_cons hr)]
  rfl

theorem rest_next : t.next.state.cursor.rest = us := by
  rw [h.state_next hr, ParseState.rest_advance, hr, List.tail_cons]

theorem past_next : t.next.state.cursor.past = u :: t.state.cursor.past :=
  Cursor.past_seek (h.getElem?_of_cons hr)

end

/-! ## Single tokens on a tape in order -/

/-- Looking up the token to come never fails. -/
theorem current (h : t.InOrder) : Tape.current t = .ok t.state.cursor.current t := by
  change item _ t = _
  unfold item item?
  simp only [h.getElem?_position]

/-- As the list has an end mark, there is a token read last also in front of the first one. -/
theorem previous (h : t.InOrder) : Tape.previous t = .ok t.state.cursor.previous t := by
  obtain ⟨tokens, position, noted, failed, panicked⟩ := t
  have hlt : tokens.findIdx (·.kind = .endMark) < tokens.length := h.mark
  change item _ _ = _
  unfold item
  cases position with
  | zero =>
    have hlast : item? tokens (((0 : Nat) : Int) - 1) = tokens.getLast? :=
      List.getLast?_eq_head?_reverse.trans List.head?_eq_getElem? |>.symm
    obtain ⟨u, hu⟩ : ∃ u, tokens.getLast? = some u :=
      ⟨_, List.getLast?_eq_some_getLast (List.ne_nil_of_length_pos (by omega))⟩
    simp only [hlast, hu]
    simp [state, Cursor.previous, Cursor.seek, hu]
  | succ n =>
    have hle : n + 1 ≤ tokens.findIdx (·.kind = .endMark) := h.le_mark
    obtain ⟨u, hu⟩ : ∃ u, tokens[n]? = some u := ⟨_, List.getElem?_eq_getElem (by omega)⟩
    have hitem : item? tokens (((n + 1 : Nat) : Int) - 1) = some u := by
      rw [Int.natCast_add, Int.natCast_one, Int.add_sub_cancel]
      exact hu
    simp only [hitem]
    simp [state, Cursor.previous, Cursor.past_seek hu]

/-- Behind a token that was passed, that token is the one read last. -/
theorem previous_next (h : t.InOrder) (hr : t.state.cursor.rest = u :: us) :
    Tape.previous t.next = .ok u t.next := by
  rw [(h.next hr).previous, Cursor.previous, h.past_next hr]
  rfl

theorem atEnd_of_end (h : t.InOrder) (hr : t.state.cursor.rest = []) :
    Tape.atEnd t = .ok true t := by
  unfold Tape.atEnd
  rw [bind_of_ok h.current, h.kind_of_end hr]
  rfl

theorem atEnd_of_cons (h : t.InOrder) (hr : t.state.cursor.rest = u :: us) :
    Tape.atEnd t = .ok false t := by
  have hk : (u.kind == .endMark) = false := beq_eq_false_iff_ne.mpr (h.kind_of_cons hr)
  unfold Tape.atEnd
  rw [bind_of_ok h.current, Cursor.current_of_cons hr, hk]
  rfl

/-- On the tape, the end is where it is at the state. -/
theorem atEnd (h : t.InOrder) : Tape.atEnd t = .ok t.state.cursor.atEnd t := by
  unfold Cursor.atEnd
  cases hr : t.state.cursor.rest with
  | nil => exact h.atEnd_of_end hr
  | cons u us => exact h.atEnd_of_cons hr

/-- A kind is seen on the tape where it is seen at the state. -/
theorem check (h : t.InOrder) (kind : TokenKind) :
    Tape.check kind t = .ok (t.state.cursor.sees [kind]) t := by
  unfold Tape.check Cursor.sees
  cases hr : t.state.cursor.rest with
  | nil =>
    rw [choose_of_true (h.atEnd_of_end hr)]
    rfl
  | cons u us =>
    rw [choose_of_false (h.atEnd_of_cons hr), bind_of_ok h.current, Cursor.current_of_cons hr]
    simp
    rfl

theorem check_of_kind (h : t.InOrder) (hr : t.state.cursor.rest = u :: us) (hu : u.kind = kind) :
    Tape.check kind t = .ok true t := by
  have hsees : t.state.cursor.sees [kind] = true := by simp [Cursor.sees, hr, hu]
  rw [h.check, hsees]

theorem check_of_other (h : t.InOrder)
    (hother : ∀ u, t.state.cursor.rest.head? = some u → u.kind ≠ kind) :
    Tape.check kind t = .ok false t := by
  have hsees : t.state.cursor.sees [kind] = false := by
    unfold Cursor.sees
    cases hr : t.state.cursor.rest with
    | nil => rfl
    | cons u us =>
      have hk : u.kind ≠ kind := hother u (by rw [hr]; rfl)
      simpa using hk
  rw [h.check, hsees]

/-- An end mark is not passed. -/
theorem advance_of_end (h : t.InOrder) (hr : t.state.cursor.rest = []) :
    Tape.advance t = .ok t.state.cursor.previous t := by
  unfold Tape.advance
  rw [choose_of_true (h.atEnd_of_end hr)]
  exact h.previous

/-- Any other token is. -/
theorem advance_of_cons (h : t.InOrder) (hr : t.state.cursor.rest = u :: us) :
    Tape.advance t = .ok u t.next := by
  unfold Tape.advance
  rw [choose_of_false (h.atEnd_of_cons hr)]
  exact h.previous_next hr

/-- A token of none of the kinds is left where it is. -/
theorem accept_of_other {kinds : List TokenKind} (h : t.InOrder)
    (hother : ∀ u, t.state.cursor.rest.head? = some u → u.kind ∉ kinds) :
    accept kinds t = .ok false t := by
  induction kinds with
  | nil => rfl
  | cons kind kinds ih =>
    have hne : ∀ u, t.state.cursor.rest.head? = some u → u.kind ≠ kind := by
      rintro u hu rfl
      exact hother u hu List.mem_cons_self
    rw [accept, choose_of_false (h.check_of_other hne)]
    exact ih fun u hu hmem => hother u hu (List.mem_cons_of_mem kind hmem)

/-- A token of one of the kinds is passed. -/
theorem accept_of_mem {kinds : List TokenKind} (h : t.InOrder)
    (hr : t.state.cursor.rest = u :: us) (hu : u.kind ∈ kinds) :
    accept kinds t = .ok true t.next := by
  induction kinds with
  | nil => cases hu
  | cons kind kinds ih =>
    rw [accept]
    by_cases hk : u.kind = kind
    · rw [choose_of_true (h.check_of_kind hr hk), bind_of_ok (h.advance_of_cons hr)]
      rfl
    · have hne : ∀ v, t.state.cursor.rest.head? = some v → v.kind ≠ kind := by
        intro v hv
        rw [hr] at hv
        cases hv
        exact hk
      rw [choose_of_false (h.check_of_other hne)]
      exact ih ((List.mem_cons.mp hu).resolve_left hk)

theorem fail (h : t.InOrder) (cause : SyntaxCause) :
    (Tape.fail cause : Step α) t = .error (.broken ⟨t.state.cursor.current, cause⟩) t := by
  unfold Tape.fail
  rw [bind_of_ok h.current]
  rfl

theorem expect_of_kind {cause : SyntaxCause} (h : t.InOrder)
    (hr : t.state.cursor.rest = u :: us) (hu : u.kind = kind) :
    expect kind cause t = .ok u t.next := by
  unfold expect
  rw [choose_of_true (h.check_of_kind hr hu)]
  exact h.advance_of_cons hr

/-- Where another token comes, it is blamed. -/
theorem expect_of_other {cause : SyntaxCause} (h : t.InOrder)
    (hother : ∀ u, t.state.cursor.rest.head? = some u → u.kind ≠ kind) :
    expect kind cause t = .error (.broken ⟨t.state.cursor.current, cause⟩) t := by
  unfold expect
  rw [choose_of_false (h.check_of_other hother)]
  exact h.fail cause

end InOrder

/-- A loop is granted more turns than there are tokens to come. -/
theorem length_rest_lt_turns (t : Tape) : t.state.cursor.rest.length < t.tokens.length + 1 := by
  have hle : t.state.cursor.rest.length ≤ (t.tokens.drop t.position).length :=
    (List.takeWhile_prefix _).length_le
  rw [List.length_drop] at hle
  omega

end Tape

end LoxScript
