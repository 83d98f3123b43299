import LoxScript.Proofs.Grammar.Attempts
import LoxScript.Proofs.Grammar.Mirroring

/-!
# Requests in any order

The constructs of the grammar can also be asked for one by one, in any order, and whether or not an
earlier request ended with an error. A request that breaks off leaves the state where it is, and the
next one goes on from there.

No such sequence of requests gets off the track (`Request.answers_in_range`): every token that is
looked up is there, the position is never behind the first end mark, and no request goes back.
-/

namespace LoxScript

/-- What can be asked for while a list of tokens is read. -/
inductive Request where
  | current
  | previous
  | atEnd
  | advance
  | check (kind : TokenKind)
  | accept (kinds : List TokenKind)
  | expect (kind : TokenKind) (cause : SyntaxCause)
  | synchronize
  | expression
  | declaration
  | variableDeclaration
  | statement
  | expressionStatement
  | block
  | program

/-- The answer to a request. -/
inductive Answer where
  | done
  | token (t : Token)
  | verdict (b : Bool)
  | expression (e : Expr)
  | statement (s : Stmt)
  | statements (ss : List Stmt)
  /-- The request was broken off. -/
  | broken (e : SyntaxError)

namespace Request

/-- The step that a request asks for. -/
def serve (room : Nat) : Request → Parse Answer
  | current => fun s => .ok (.token s.cursor.current) s
  | previous => fun s => .ok (.token s.cursor.previous) s
  | atEnd => fun s => .ok (.verdict s.cursor.atEnd) s
  | advance => return .token (← Parse.advance)
  | check kind => fun s => .ok (.verdict (s.cursor.sees [kind])) s
  | accept kinds => return .verdict (← Parse.accept kinds).isSome
  | expect kind cause => return .token (← Parse.expect kind cause)
  | synchronize => fun s => .ok .done s.synchronize
  | expression => return .expression (← Parse.expression room)
  | declaration => return .statement (← Parse.declaration room)
  | variableDeclaration => return .statement (← Parse.variableDeclaration (Parse.expression room))
  | statement => return .statement (← Parse.statement room)
  | expressionStatement => return .statement (← Parse.expressionStatement (Parse.expression room))
  | block => return .statements (← Parse.blockOf (Parse.declaration room))
  | program => fun s => .ok (.statements (Parse.program room s).1) (Parse.program room s).2

/-- The answer to a request, and the state behind it. An error is an answer as well. -/
def answer (room : Nat) (r : Request) (s : ParseState) : Answer × ParseState :=
  match r.serve room s with
  | .ok a s => (a, s)
  | .error e s => (.broken e, s)

/-- The answers to requests in a row, and the state behind them. -/
def answers (room : Nat) : List Request → ParseState → List Answer × ParseState
  | [], s => ([], s)
  | r :: rs, s =>
    let (a, s) := r.answer room s
    let (later, s) := answers room rs s
    (a :: later, s)

end Request

namespace Tape

/-- The step on a tape that a request asks for. -/
def serve (room : Nat) : Request → Step Answer
  | .current => return .token (← current)
  | .previous => return .token (← previous)
  | .atEnd => return .verdict (← atEnd)
  | .advance => return .token (← advance)
  | .check kind => return .verdict (← check kind)
  | .accept kinds => return .verdict (← accept kinds)
  | .expect kind cause => return .token (← expect kind cause)
  | .synchronize => do
    synchronize
    return .done
  | .expression => return .expression (← expression room)
  | .declaration => return .statement (← declaration room)
  | .variableDeclaration => return .statement (← variableDeclaration (expression room))
  | .statement => return .statement (← statement room)
  | .expressionStatement => return .statement (← expressionStatement (expression room))
  | .block => return .statements (← blockOf (declaration room))
  | .program => return .statements (← program room)

/-- The answer to a request. A syntax error is an answer as well, but no other fault is. -/
def answer (room : Nat) (r : Request) : Step Answer := do
  match ← attempt (serve room r) with
  | .ok a => return a
  | .error e => return .broken e

/-- The answers to requests in a row. -/
def answers (room : Nat) : List Request → Step (List Answer)
  | [] => return []
  | r :: rs => do
    let a ← answer room r
    let later ← answers room rs
    return a :: later

/-! ## Both ways of reading give the same answers -/

/-- Every request is served alike in both ways of reading. -/
theorem mirrors_serve (room : Nat) (r : Request) : Mirrors (r.serve room) (serve room r) := by
  have hexpression := mirrors_expression room
  cases r with
  | current => exact .looking Cursor.current Answer.token fun t h => h.current
  | previous => exact .looking Cursor.previous Answer.token fun t h => h.previous
  | atEnd => exact .looking Cursor.atEnd Answer.verdict fun t h => h.atEnd
  | advance => exact mirrors_advance.bind fun u => .pure _
  | check kind => exact .looking (Cursor.sees · [kind]) Answer.verdict fun t h => h.check kind
  | accept kinds =>
    exact fun t h => .accept h (Mirrors.pure _ t h) fun _ _ _ _ hnext => Mirrors.pure _ t.next hnext
  | expect kind cause => exact (Mirrors.expect kind cause).bind fun u => .pure _
  | synchronize => exact mirrors_synchronize.bind fun _ => .pure _
  | expression => exact hexpression.bind fun e => .pure _
  | declaration => exact (mirrors_declaration room).bind fun s => .pure _
  | variableDeclaration => exact (mirrors_variableDeclaration hexpression).bind fun s => .pure _
  | statement => exact (mirrors_statement room).bind fun s => .pure _
  | expressionStatement => exact (mirrors_expressionStatement hexpression).bind fun s => .pure _
  | block =>
    exact (mirrors_blockOf (Parse.consumes_declaration room) (mirrors_declaration room)).bind
      fun ss => .pure _
  | program => exact (mirrors_program room).bind fun ss => .pure _

/-- So both give the same answer, be it an error or not. -/
theorem mirrors_answer (room : Nat) (r : Request) :
    Mirrors (fun s => .ok (r.answer room s).1 (r.answer room s).2) (answer room r) := by
  intro t h
  have hserve : Mirrored t.tokens _ _ := mirrors_serve room r t h
  unfold MirrorsAt Request.answer answer
  dsimp only
  generalize r.serve room t.state = o at hserve
  generalize hq : serve room r t = o' at hserve
  cases hserve with
  | ok htokens h₁ =>
    rw [bind_of_ok (attempt_of_ok hq)]
    exact .ok htokens h₁
  | error htokens h₁ =>
    rw [bind_of_ok (attempt_of_broken hq)]
    exact .ok htokens h₁

theorem mirrors_answers (room : Nat) (rs : List Request) :
    Mirrors (fun s => .ok (Request.answers room rs s).1 (Request.answers room rs s).2)
      (answers room rs) := by
  induction rs with
  | nil => exact .pure []
  | cons r rs ih =>
    exact (mirrors_answer room r).bind fun a => ih.bind fun later => .pure (a :: later)

end Tape

/-! ## Requests never go back -/

/-- The second state is at the same position as the first one or further on. -/
def ParseState.Onward (s s' : ParseState) : Prop := s.cursor.position ≤ s'.cursor.position

namespace ParseState

variable {s s' : ParseState}

instance : IsPreorder ParseState Onward where
  refl _ := Nat.le_refl _
  trans _ _ _ := Nat.le_trans

theorem Covers.onward {us : List Token} {es : List SyntaxError} (h : s.Covers us es s') :
    Onward s s' := by
  unfold Onward
  rw [h.position]
  omega

theorem Reads.covers (h : Reads s s') : ∃ us es, s.Covers us es s' := by
  obtain ⟨us, es, hs⟩ := h.leads
  exact ⟨us, es, hs.covers⟩

end ParseState

namespace Parse

open ParseState

variable {α : Type} {p : Parse α} {s s' : ParseState}

/-- What is composed never goes back. -/
theorem Composed.onward (hp : Composed p) : Frames Onward p := by
  intro s
  obtain ⟨us, es, hs⟩ := (hp.frames s).covers
  exact hs.onward

/-- What consumes a token moves on. -/
theorem Consumes.moves (hc : Consumes p) (hp : Composed p) {a : α} (h : p s = .ok a s') :
    s.cursor.position < s'.cursor.position := by
  obtain ⟨us, es, hs⟩ := (hp.frames.of_ok h).covers
  have hlt := hc s a s' h
  rw [hs.rest, List.length_append] at hlt
  rw [hs.position]
  omega

end Parse

namespace Request

open Parse ParseState

variable {room : Nat} {r : Request} {s : ParseState}

/-- The requests for a construct. -/
def constructs : List Request :=
  [expression, declaration, variableDeclaration, statement, expressionStatement, block]

/-- A construct that is asked for is composed and consumes. -/
theorem composed_consumes_serve (room : Nat) (hr : r ∈ constructs) :
    Composed (r.serve room) ∧ Consumes (r.serve room) := by
  have answered : ∀ {α : Type} {p : Parse α} (f : α → Answer), Composed p → Consumes p →
      Composed (p >>= fun a => pure (f a)) ∧ Consumes (p >>= fun a => pure (f a)) :=
    fun f hp hc => ⟨.bind hp fun _ => .pure _, hc.before fun _ => .pure _⟩
  have hexpression := composed_expression room
  have hdeclaration := composed_declaration room
  have hconsumes := consumes_declaration room
  simp only [constructs, List.mem_cons, List.not_mem_nil, or_false] at hr
  rcases hr with rfl | rfl | rfl | rfl | rfl | rfl
  · exact answered _ hexpression (consumes_expression room)
  · exact answered _ hdeclaration hconsumes
  · exact answered _ (composed_variableDeclaration hexpression)
      (consumes_variableDeclaration hexpression)
  · exact answered _ (composed_statement room) (consumes_statement room)
  · exact answered _ (composed_expressionStatement hexpression)
      (consumes_expressionStatement hexpression)
  · exact answered _ (composed_blockOf hdeclaration hconsumes)
      (consumes_blockOf hdeclaration hconsumes)

/-- No request goes back while it is served. -/
theorem onward_serve (room : Nat) (r : Request) : Frames Onward (r.serve room) := by
  cases r with
  | current | previous | atEnd | check => exact fun s => Nat.le_refl _
  | advance =>
    have hadvance : Frames Onward Parse.advance := by
      intro s
      obtain ⟨us, es, hs⟩ := (reads_advance s).covers
      exact hs.onward
    exact hadvance.bind fun _ => .pure _
  | accept kinds => exact (Composed.accept kinds).onward.bind fun _ => .pure _
  | expect kind cause => exact (Composed.expect kind cause).onward.bind fun _ => .pure _
  | synchronize =>
    intro s
    obtain ⟨us, hs, -⟩ := s.exists_leads_synchronize
    exact hs.covers.onward
  | program =>
    intro s
    obtain ⟨os, s', hs, hprogram⟩ := exists_attempts room s
    obtain ⟨es, hcovers, -⟩ := hs.covers
    have hend : endState (serve room program s) = s' := congrArg Prod.snd hprogram
    rw [hend]
    exact hcovers.onward
  | _ => exact (composed_consumes_serve room (by simp [constructs])).1.onward

theorem answer_of_ok {a : Answer} {s₁ : ParseState} (h : r.serve room s = .ok a s₁) :
    r.answer room s = (a, s₁) := by
  unfold answer
  rw [h]

theorem answer_of_error {e : SyntaxError} {s₁ : ParseState} (h : r.serve room s = .error e s₁) :
    r.answer room s = (.broken e, s₁) := by
  unfold answer
  rw [h]

/-- No request goes back, whatever the answer is. -/
theorem onward_answer (room : Nat) (r : Request) (s : ParseState) :
    Onward s (r.answer room s).2 := by
  cases h : r.serve room s with
  | ok a s₁ =>
    rw [answer_of_ok h]
    exact (onward_serve room r).of_ok h
  | error e s₁ =>
    rw [answer_of_error h]
    exact (onward_serve room r).of_error h

/-- A construct that is read takes up at least one token. -/
theorem moves_answer (hr : r ∈ constructs) (h : ∀ e, (r.answer room s).1 ≠ .broken e) :
    s.cursor.position < (r.answer room s).2.cursor.position := by
  obtain ⟨hcomposed, hconsumes⟩ := composed_consumes_serve room hr
  cases hserve : r.serve room s with
  | ok a s₁ =>
    rw [answer_of_ok hserve]
    exact hconsumes.moves hcomposed hserve
  | error e s₁ =>
    rw [answer_of_error hserve] at h
    exact absurd rfl (h e)

/-- A token that is not accepted is not passed. -/
theorem stays_of_verdict {kinds : List TokenKind}
    (h : ((accept kinds).answer room s).1 = .verdict false) :
    ((accept kinds).answer room s).2 = s := by
  rcases next_cases (·.kind ∈ kinds) s.cursor.rest with ⟨u, us, hrest, hk⟩ | hother
  · have hserve : (accept kinds).serve room s = .ok (.verdict true) s.advance :=
      bind_of_ok (accept_of_mem hrest hk)
    rw [answer_of_ok hserve] at h
    cases h
  · have hserve : (accept kinds).serve room s = .ok (.verdict false) s :=
      bind_of_ok (accept_of_other hother)
    rw [answer_of_ok hserve]

/-- Nor is one passed where another one is expected. -/
theorem stays_of_broken {kind : TokenKind} {cause : SyntaxCause} {e : SyntaxError}
    (h : ((expect kind cause).answer room s).1 = .broken e) :
    ((expect kind cause).answer room s).2 = s := by
  rcases next_cases (·.kind = kind) s.cursor.rest with ⟨u, us, hrest, hk⟩ | hother
  · have hserve : (expect kind cause).serve room s = .ok (.token u) s.advance :=
      bind_of_ok (expect_of_kind hrest hk)
    rw [answer_of_ok hserve] at h
    cases h
  · rw [answer_of_error (bind_of_error (expect_of_other hother))]

/-- No sequence of requests gets off the track, whatever the tokens are, and whether or not earlier
requests were broken off.
- Reading by position gives the same answers. So every index at which a token is looked up is one of
  the list, also on the way to an error, and no loop needs more turns than there are tokens.
- Afterwards the token to come is the one at the position.
- The next request, whatever is asked for, does not go back, and not behind the first end mark.
- A token that is not accepted, or that is not the expected one, is not passed.
- A construct that is read takes up at least one token. -/
theorem answers_in_range (room : Nat) (ts : List Token) (rs : List Request) :
    let s := (answers room rs (.ofTokens ts)).2
    (∃ t, Tape.answers room rs (.ofTokens ts) = .ok (answers room rs (.ofTokens ts)).1 t ∧
      t.tokens = Cursor.closed ts ∧ t.position = s.cursor.position ∧ t.state = s) ∧
    (Cursor.closed ts)[s.cursor.position]? = some s.cursor.current ∧
    ∀ r : Request,
      let s' := (r.answer room s).2
      s.cursor.position ≤ s'.cursor.position ∧
      s'.cursor.position ≤ (Cursor.closed ts).findIdx (·.kind = .endMark) ∧
      (∀ kinds, r = accept kinds → (r.answer room s).1 = .verdict false → s' = s) ∧
      (∀ kind cause e, r = expect kind cause → (r.answer room s).1 = .broken e → s' = s) ∧
      (r ∈ constructs → (∀ e, (r.answer room s).1 ≠ .broken e) →
        s.cursor.position < s'.cursor.position) := by
  obtain ⟨t, hrun, hstate, htokens, h⟩ :=
    (Tape.mirrors_answers room rs).exists_of_total (Tape.inOrder_ofTokens ts)
  rw [Tape.state_ofTokens] at hrun hstate
  dsimp only
  rw [← hstate]
  have hposition := h.position_state
  refine ⟨⟨t, hrun, htokens, hposition.symm, rfl⟩, ?_, fun r => ?_⟩
  · rw [hposition, ← h.getElem?_position, htokens]
    rfl
  · obtain ⟨t', -, hstate', htokens', h'⟩ := (Tape.mirrors_answer room r).exists_of_total h
    refine ⟨onward_answer room r t.state, ?_, ?_, ?_, moves_answer⟩
    · rw [← hstate', h'.position_state]
      have hle := h'.le_mark
      rwa [htokens', htokens] at hle
    · rintro kinds rfl
      exact stays_of_verdict
    · rintro kind cause e rfl
      exact stays_of_broken

end Request

end LoxScript
