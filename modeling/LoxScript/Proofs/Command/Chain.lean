import LoxScript.Proofs.Command.Dump
import LoxScript.Proofs.Lexeme.Joining

/-!
# A chain of operators

A chain of operators is read by a loop and not by descending, so that it takes hardly any room to be
read, however long it is. Where its value does not matter it takes hardly any room to be run either.
But its tree has a level for each operator, and showing that takes as much room as the chain is long:
where a dump is asked for, the command crashes on a script that runs well without one
(`Command.chain_crashes`).
-/

namespace LoxScript

/-- What does not begin a statement of another kind and is followed by a semicolon is read as an
expression statement, if there is room for the expression. -/
theorem declaration_of_phrase {room : Nat} {ts : List Token} {e : Expr} {semicolon : Token}
    {s s' : ParseState} (h : Phrase 0 ts e) (hroom : e.nesting + 2 ≤ room)
    (hk : semicolon.kind = .semicolon) (hs : s.Passes (ts ++ [semicolon]) s') :
    Parse.declaration room s = .ok (.expression e e.line) s' := by
  obtain ⟨r, rfl⟩ : ∃ r, room = r + 1 := ⟨room - 1, by omega⟩
  obtain ⟨t, us, rfl, ht⟩ := h.starts
  have hother (kinds : List TokenKind) (hkinds : kinds.all (!·.startsPhrase) = true) :
      ∀ u, s.cursor.rest.head? = some u → u.kind ∉ kinds := by
    intro u hu hmem
    rw [hs.1] at hu
    cases hu
    have hnot := List.all_eq_true.mp hkinds _ hmem
    simp [ht] at hnot
  obtain ⟨s₁, h₁, h₂⟩ := ParseState.passes_append.mp hs
  have hend : Parse.EndsPhrase s₁.cursor.rest := Parse.endsPhrase_of_passes h₂ (.inl hk)
  have hread : Parse.Finds (r ≤ e.nesting) (Parse.declaration (r + 1)) s (.expression e e.line) s' :=
    .bind (.accept_none (hother _ rfl)) (.bind (.accept_none (hother _ rfl))
      (.bind (Parse.finds_expression h r s s₁ h₁ hend) (.bind (.expect h₂ hk) .result)))
  exact hread.resolve_right fun hdeep => absurd hdeep.1 (by omega)

/-- Where nothing else is to come, the program consists of that statement. -/
theorem program_of_phrase {room : Nat} {ts : List Token} {e : Expr} {semicolon : Token}
    {s : ParseState} (h : Phrase 0 ts e) (hroom : e.nesting + 2 ≤ room)
    (hk : semicolon.kind = .semicolon) (hr : s.cursor.rest = ts ++ [semicolon]) :
    Parse.program room s = ([.expression e e.line], s.behind (ts ++ [semicolon]).length) := by
  have hend : (s.behind (ts ++ [semicolon]).length).cursor.rest = [] := by
    rw [ParseState.rest_behind, hr, List.drop_length]
  have hpasses : s.Passes (ts ++ [semicolon]) (s.behind (ts ++ [semicolon]).length) :=
    ⟨by rw [hend, hr, List.append_nil], rfl⟩
  have hne : s.cursor.rest ≠ [] := by
    rw [hr]
    exact List.append_ne_nil_of_right_ne_nil _ (List.cons_ne_nil _ _)
  unfold Parse.program
  rw [congrArg List.length hr, List.length_append, List.length_singleton, Parse.programOf_succ hne,
    declaration_of_phrase h hroom hk hpasses]
  dsimp only
  rw [Parse.programOf_of_end hend, List.length_append, List.length_singleton]

namespace Chain

/-- The word `false`, which decides the statement. -/
def falseWord : Token := ⟨.falseWord, "false", .nil, 1⟩

/-- The word `and`, behind which nothing is evaluated. -/
def andWord : Token := ⟨.andWord, "and", .nil, 1⟩

/-- The operator of the chain. -/
def plus : Token := ⟨.plus, "+", .nil, 1⟩

/-- The operand of the chain. -/
def one : Token := ⟨.number, "1", .number (Decimal.ofDigits ['1'] []), 1⟩

/-- The end of the statement. -/
def semicolon : Token := ⟨.semicolon, ";", .nil, 1⟩

/-- The characters behind the first operand of a chain. -/
def links : Nat → List Char
  | 0 => [';']
  | n + 1 => '+' :: '1' :: links n

/-- A statement of which the value is false without its chain of `n` operators being evaluated. -/
def text (n : Nat) : List Char :=
  ['f', 'a', 'l', 's', 'e', ' ', 'a', 'n', 'd', ' ', '1'] ++ links n

/-- The statement as a script. -/
def source (n : Nat) : String := String.ofList (text n)

/-- The tokens of the chain. -/
def tokens (n : Nat) : List Token := one :: (List.replicate n [plus, one]).flatten

/-- The tree of the chain. -/
def sum : Nat → Expr
  | 0 => .literal one.literal 1
  | n + 1 => .binary (sum n) plus (.literal one.literal 1) 1

/-- The statement as a tree. -/
def statement (n : Nat) : Stmt :=
  .expression (.logical (.literal (.bool false) 1) andWord (sum n) 1) 1

theorem tokens_succ (n : Nat) : tokens (n + 1) = tokens n ++ plus :: [one] := by
  simp [tokens, List.replicate_succ']

/-- Yet no part of it is nested in the source. -/
theorem nesting_sum (n : Nat) : (sum n).nesting = 1 := by
  induction n with
  | zero => rfl
  | succ n ih => simp [sum, Expr.nesting, ih]

/-- The tree of a chain is as deep as the chain is long. -/
theorem depth_sum (n : Nat) : (sum n).depth = n + 1 := by
  induction n with
  | zero => rfl
  | succ n ih => simp [sum, Expr.depth, ih]

theorem phrase_sum (n : Nat) : Phrase Tier.term.level (tokens n) (sum n) := by
  have hone (k : Nat) (hk : k ≤ 8) : Phrase k [one] (.literal one.literal 1) :=
    (Phrase.atom rfl).loosen hk
  induction n with
  | zero => exact hone _ (by decide)
  | succ n ih =>
    rw [tokens_succ]
    exact .operation rfl ih (hone _ (by decide))

/-- The statement is an expression of the grammar. -/
theorem phrase (n : Nat) : Phrase 0 ([falseWord] ++ andWord :: tokens n)
    (.logical (.literal (.bool false) 1) andWord (sum n) 1) := by
  have hfalse : Phrase Tier.conjunction.level [falseWord] (.literal (.bool false) 1) :=
    (Phrase.atom rfl).loosen (by decide)
  have hchain : Phrase (Tier.conjunction.level + 1) (tokens n) (sum n) :=
    (phrase_sum n).loosen (by decide)
  have hand : Tier.of? andWord.kind = some .conjunction := rfl
  exact (Phrase.operation hand hfalse hchain).loosen (Nat.zero_le _)

/-! The text of a chain is cut into the tokens of it. -/

theorem first_one (n : Nat) : Piece.first '1' (links n) = (.numeral ['1'] [], links n) := by
  cases n <;> rfl

/-- A piece within a line contributes its token, if it is one. -/
theorem scan_cons (p : Piece) {c : Char} {rest left : List Char} {ts : List Token}
    (hfirst : Piece.first c rest = (p, left)) (hline : Text.newlines p.chars = 0)
    (herror : p.error? 1 = none) (h : Scan.ofPieces 1 (pieces left) = ⟨ts, []⟩) :
    Scan.ofPieces 1 (pieces (c :: rest)) = ⟨(p.token? 1).toList ++ ts, []⟩ := by
  rw [pieces_cons, hfirst, Scan.ofPieces]
  simp only [hline, Int.natCast_zero, Int.add_zero, h, herror]
  rfl

theorem scan_links (n : Nat) : Scan.ofPieces 1 (pieces (links n)) =
    ⟨(List.replicate n [plus, one]).flatten ++ [semicolon] ++ [Token.endAt 1], []⟩ := by
  induction n with
  | zero =>
    have hend : Scan.ofPieces 1 (pieces []) = ⟨[Token.endAt 1], []⟩ := by
      rw [pieces]
      rfl
    exact scan_cons (.sign [';'] .semicolon) rfl rfl rfl hend
  | succ n ih =>
    have hone := scan_cons (.numeral ['1'] []) (first_one n) rfl rfl ih
    exact scan_cons (.sign ['+'] .plus) rfl rfl rfl hone

/-- The statement is scanned as its tokens, without errors. -/
theorem scan_source (n : Nat) : Scan.ofSource (source n) =
    ⟨falseWord :: andWord :: tokens n ++ [semicolon] ++ [Token.endAt 1], []⟩ := by
  have hone := scan_cons (.numeral ['1'] []) (first_one n) rfl rfl (scan_links n)
  have hand : Scan.ofPieces 1 (pieces ('a' :: 'n' :: 'd' :: ' ' :: '1' :: links n)) = _ :=
    scan_cons (.word ['a', 'n', 'd']) rfl rfl rfl (scan_cons (.blanks [' ']) rfl rfl rfl hone)
  have hfalse : Scan.ofPieces 1 (pieces (text n)) = _ :=
    scan_cons (.word ['f', 'a', 'l', 's', 'e']) rfl rfl rfl
      (scan_cons (.blanks [' ']) rfl rfl rfl hand)
  unfold Scan.ofSource source
  rw [String.toList_ofList, hfalse]
  rfl

/-- A text without carriage returns has its line ends unified already. -/
theorem unified_eq {cs : List Char} (h : '\r' ∉ cs) : Text.unified cs = cs := by
  induction cs with
  | nil => rfl
  | cons c cs ih =>
    have hc : c ≠ '\r' := fun hc => h (hc ▸ List.mem_cons_self)
    have hcs := ih fun hmem => h (List.mem_cons_of_mem c hmem)
    rw [Text.unified]
    · rw [hcs]
    · intro rest hr
      exact absurd hr hc
    · exact hc

theorem return_not_mem (n : Nat) : '\r' ∉ text n := by
  have hlinks : '\r' ∉ links n := by
    induction n with
    | zero => decide
    | succ n ih => simp [links, ih]
  simp [text, hlinks]

/-- The script can be read and decoded. -/
theorem decode?_source (n : Nat) : Command.decode? (source n).toUTF8 = some (source n) := by
  have hvalid : String.fromUTF8? (source n).toUTF8 = some (source n) :=
    dif_pos (source n).isValidUTF8
  rw [Command.decode?, hvalid, Option.map_some, source, String.toList_ofList,
    unified_eq (return_not_mem n)]

theorem isProper_tokens (n : Nat) : ∀ t ∈ falseWord :: andWord :: tokens n ++ [semicolon],
    Cursor.isProper t = true := by
  have hlinks : ∀ t ∈ tokens n, Cursor.isProper t = true := by
    intro t ht
    rcases List.mem_cons.mp ht with rfl | ht
    · rfl
    · obtain ⟨link, hlink, ht⟩ := List.mem_flatten.mp ht
      rw [List.eq_of_mem_replicate hlink] at ht
      simp only [List.mem_cons, List.not_mem_nil, or_false] at ht
      rcases ht with rfl | rfl <;> rfl
  simp only [List.cons_append, List.forall_mem_cons, List.forall_mem_append]
  exact ⟨rfl, rfl, hlinks, by simp [semicolon, Cursor.isProper]⟩

/-- Reading the chain takes hardly any room, however long it is. -/
theorem program_source {room : Nat} (hroom : 3 ≤ room) (n : Nat) :
    (Program.ofTokens room (Scan.ofSource (source n)).tokens).statements = [statement n] ∧
      (Program.ofTokens room (Scan.ofSource (source n)).tokens).errors = [] ∧
      (Program.ofTokens room (Scan.ofSource (source n)).tokens).panicked = false := by
  have hstart := ParseState.ofTokens_closed (isProper_tokens n) (z := Token.endAt 1) rfl
  have hnesting :
      (Expr.logical (.literal (.bool false) 1) andWord (sum n) 1).nesting + 2 ≤ room := by
    simp only [Expr.nesting, nesting_sum]
    omega
  have hread : Parse.program room ⟨⟨[], falseWord :: andWord :: tokens n ++ [semicolon],
      Token.endAt 1, Token.endAt 1⟩, [], false⟩ = _ :=
    program_of_phrase (phrase n) hnesting rfl rfl
  rw [scan_source]
  unfold Program.ofTokens
  rw [hstart, hread]
  exact ⟨rfl, ParseState.noted_behind _ _, ParseState.panicked_behind _ _⟩

/-- Running the chain takes hardly any room either, because its value does not matter. -/
theorem run_source {b : Bounds} (hnesting : 3 ≤ b.nesting) (hroom : 3 ≤ b.room) (n : Nat) :
    run b (source n) Machine.fresh = .ok ⟨true, [], Machine.fresh⟩ := by
  obtain ⟨hstatements, herrors, hpanicked⟩ := program_source hnesting n
  obtain ⟨r, hr⟩ : ∃ r, b.room = r + 3 := ⟨b.room - 3, by omega⟩
  have hexec : Stmt.execAll b b.room [statement n] Machine.fresh = .ok () Machine.fresh := by
    rw [hr]
    rfl
  have hscan : (Scan.ofSource (source n)).errors = [] := by rw [scan_source]
  have hstart : { Machine.fresh with output := "" } = Machine.fresh := rfl
  unfold run
  simp only [hstatements, hpanicked, Bool.false_eq_true, if_false, hstart, hexec]
  simp [Report.ofResult, Scan.failed, Program.failed, Scan.diagnostics, Program.diagnostics, hscan,
    herrors]

/-- With too little room, the tree of a long chain is not displayed. -/
theorem dump?_source {b : Bounds} (hnesting : 3 ≤ b.nesting) {n : Nat} (hn : b.room < n + 3) :
    Command.dump? b (source n) = none := by
  rw [Command.dump?_eq_none, (program_source hnesting n).1]
  have hdepth : Stmt.deepest [statement n] = n + 3 := by
    simp [Stmt.deepest, Stmt.depth, statement, Expr.depth, depth_sum]
  rwa [hdepth]

/-- A folder with a chain. -/
def folder (n : Nat) (name : String) : Lookup :=
  if name = "chain.lox" then .ok (source n).toUTF8 else .error .missing

end Chain

namespace Command

/-- The command finds the script. -/
theorem reads_chain (n : Nat) : Reads (Chain.folder n) ["chain.lox"] (Chain.source n) :=
  ⟨"chain.lox", _, rfl, by decide, rfl, Chain.decode?_source n⟩

/-- A chain of as many operators as there is room for levels is not nested at all, and the script runs
well, but its dump makes the command crash. -/
theorem chain_crashes {b : Bounds} (hnesting : 3 ≤ b.nesting) (hroom : 3 ≤ b.room) {n : Nat}
    (hn : b.room < n + 3) (events : List Event) :
    answer b (Chain.folder n) false events ["chain.lox"] = .exited 0 "" "" [] ∧
      answer b (Chain.folder n) true events ["chain.lox"] = .crashed .tooDeep := by
  have hreads := reads_chain n
  rw [answer_of_reads hreads, answer_of_reads hreads, Chain.dump?_source hnesting hn]
  refine ⟨?_, rfl⟩
  have hrun := Chain.run_source hnesting hroom n
  simp only [runText, hrun]
  rfl

/-- Fifteen hundred operators are too many for the usual room. -/
theorem longChain_crashes :
    answer {} (Chain.folder 1500) false [] ["chain.lox"] = .exited 0 "" "" [] ∧
      ¬ ∃ shown, answer {} (Chain.folder 1500) true [] ["chain.lox"] =
        .exited 0 shown "" [] := by
  obtain ⟨hruns, hcrashes⟩ :=
    chain_crashes (b := {}) (n := 1500) (by decide) (by decide) (by decide) []
  refine ⟨hruns, ?_⟩
  rintro ⟨shown, hshown⟩
  rw [hcrashes] at hshown
  cases hshown

end Command

end LoxScript
