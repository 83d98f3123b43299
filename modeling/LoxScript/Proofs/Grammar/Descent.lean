import LoxScript.Proofs.Grammar.Settling

/-!
# One step for each tier

The grammar reads operators of all tiers in one climb. The textbook gives every tier a step of its own
instead, which reads operands of the next tier and folds them from the left as long as an operator of
its own tier follows. `Descent` is the grammar of expressions in that form: nothing in it compares
levels, and each tier lists its operators.

The two do the same in every state, and at every level (`climbing_is_descent`). What carries the proof
is that a climb stops only in front of an operator that binds less tightly: the operand that a tier has
just read is therefore not followed by an operator of a tighter tier, and whether the fold of the tier
goes on is decided by the token that the climb looks at (`climbAll_eq_links`).
-/

namespace LoxScript

open ParseState

/-- No two tiers are on the same level. -/
theorem Tier.level_injective : Function.Injective level := by
  intro t t'
  cases t <;> cases t' <;> decide

namespace Parse

/-! ## The grammar of expressions, tier by tier -/

namespace Descent

/-- Folds operators of the given kinds from the left onto the operand `left`, `fuel` at most. -/
def links (kinds : List TokenKind) (node : Expr → Token → Expr → Int → Expr) (operand : Parse Expr) :
    (fuel : Nat) → (left : Expr) → Parse Expr
  | 0, left => return left
  | fuel + 1, left => do
    match ← accept kinds with
    | none => return left
    | some op =>
      let right ← operand
      links kinds node operand fuel (node left op right op.line)

/-- One or more operands, joined by operators of the given kinds. -/
def row (kinds : List TokenKind) (node : Expr → Token → Expr → Int → Expr) (operand : Parse Expr) :
    Parse Expr := do
  let left ← operand
  links kinds node operand (← remaining) left

/-- Quotients and products of operands. -/
def factor (operand : Parse Expr) : Parse Expr := row [.slash, .star] .binary operand

/-- Differences and sums of factors. -/
def term (operand : Parse Expr) : Parse Expr := row [.minus, .plus] .binary (factor operand)

/-- Comparisons of terms by their order. -/
def comparison (operand : Parse Expr) : Parse Expr :=
  row [.greater, .greaterEqual, .less, .lessEqual] .binary (term operand)

/-- Comparisons of comparisons by equality. -/
def equality (operand : Parse Expr) : Parse Expr :=
  row [.bangEqual, .equalEqual] .binary (comparison operand)

/-- Equalities joined by `and`. -/
def conjunction (operand : Parse Expr) : Parse Expr := row [.andWord] .logical (equality operand)

/-- Conjunctions joined by `or`. -/
def disjunction (operand : Parse Expr) : Parse Expr := row [.orWord] .logical (conjunction operand)

mutual

/-- An operand of the tightest tier. -/
def unary : (room : Nat) → Parse Expr
  | 0 => fail .tooDeep
  | room + 1 => unaryOf (unary room) (primaryOf (expression room))

/-- An assignment, or a disjunction by itself. -/
def expression : (room : Nat) → Parse Expr
  | 0 => fail .tooDeep
  | room + 1 => assignmentOf (disjunction (unary room)) (expression room)

end

/-- The step for operators that bind at the given level or more tightly. -/
def ofLevel (room : Nat) : (level : Nat) → Parse Expr
  | 0 | 1 => disjunction (unary room)
  | 2 => conjunction (unary room)
  | 3 => equality (unary room)
  | 4 => comparison (unary room)
  | 5 => term (unary room)
  | 6 => factor (unary room)
  | _ => unary room

end Descent

/-! ## Where a climb stops -/

section

variable {operand : Parse Expr}

/-- A climb stops in front of an operator that binds less tightly, if any follows. -/
theorem endsTier_climbAll (ho : Composed operand) {least : Nat} {left e : Expr} {s s' : ParseState}
    (h : climbAll operand least left s = .ok e s') : EndsTier least s'.cursor.rest := by
  induction hn : s.cursor.rest.length using Nat.strongRecOn generalizing s left with
  | ind n ih =>
    by_cases hstop : EndsTier least s.cursor.rest
    · rw [climbAll_of_stop hstop] at h
      cases h
      exact hstop
    · obtain ⟨tier, op, us, hr, htier, hl⟩ := operator_of_not_endsTier hstop
      rw [climbAll_of_fold ho hr htier hl] at h
      obtain ⟨right, s₁, h₁, h₂⟩ := bind_eq_ok.mp h
      have hle := ((composed_tiers ho _).frames.of_ok h₁).length_le
      have hlen : s.advance.cursor.rest.length < n := by
        rw [← hn, rest_advance, hr]
        exact Nat.lt_succ_self _
      exact ih _ (by omega) h₂ rfl

/-- Behind the operators of a level, none of them comes. -/
theorem endsTier_tiers (ho : Composed operand) {least : Nat} {e : Expr} {s s' : ParseState}
    (h : tiers operand least s = .ok e s') : EndsTier least s'.cursor.rest := by
  rw [tiers_eq] at h
  obtain ⟨left, s₁, -, h₂⟩ := bind_eq_ok.mp h
  exact endsTier_climbAll ho h₂

end

/-! ## A row without counting turns -/

namespace Descent

section

variable {kinds : List TokenKind} {node : Expr → Token → Expr → Int → Expr} {operand : Parse Expr}

/-- A row ends where none of its operators comes. -/
theorem links_of_other {left : Expr} {s : ParseState}
    (h : ∀ u, s.cursor.rest.head? = some u → u.kind ∉ kinds) (fuel : Nat) :
    links kinds node operand fuel left s = .ok left s := by
  cases fuel with
  | zero => rfl
  | succ fuel =>
    rw [links, bind_of_ok (accept_of_other h)]
    rfl

/-- Turns beyond the number of tokens to come change nothing. -/
theorem links_granted (ho : Composed operand) {fuel fuel' : Nat} {left : Expr} {s : ParseState}
    (h : s.cursor.rest.length ≤ fuel) (h' : s.cursor.rest.length ≤ fuel') :
    links kinds node operand fuel left s = links kinds node operand fuel' left s := by
  induction fuel generalizing fuel' left s with
  | zero =>
    have hr : s.cursor.rest = [] := List.length_eq_zero_iff.mp (by omega)
    have hother : ∀ u, s.cursor.rest.head? = some u → u.kind ∉ kinds := by simp [hr]
    rw [links_of_other hother, links_of_other hother]
  | succ fuel ih =>
    rcases next_cases (·.kind ∈ kinds) s.cursor.rest with ⟨op, us, hr, hk⟩ | hother
    · rw [hr, List.length_cons] at h h'
      obtain ⟨fuel', rfl⟩ : ∃ n, fuel' = n + 1 := ⟨fuel' - 1, by omega⟩
      have haccept := accept_of_mem hr hk
      rw [links, links, bind_of_ok haccept, bind_of_ok haccept]
      refine bind_congr_at rfl fun right s₁ h₁ => ?_
      have hle := (ho.frames.of_ok h₁).length_le
      rw [rest_advance, hr, List.tail_cons] at hle
      exact ih (by omega) (by omega)
    · rw [links_of_other hother, links_of_other hother]

/-- Folds all operators of the given kinds that follow. -/
def linksAll (kinds : List TokenKind) (node : Expr → Token → Expr → Int → Expr)
    (operand : Parse Expr) (left : Expr) : Parse Expr := fun s =>
  links kinds node operand s.cursor.rest.length left s

/-- A row is its first operand and the links behind it. -/
theorem row_eq (kinds : List TokenKind) (node : Expr → Token → Expr → Int → Expr)
    (operand : Parse Expr) : row kinds node operand = operand >>= linksAll kinds node operand := by
  funext s
  refine bind_congr_at rfl fun left s₁ _ => ?_
  have hr : remaining s₁ = .ok s₁.cursor.rest.length s₁ := rfl
  rw [bind_of_ok hr]
  rfl

theorem linksAll_of_other {left : Expr} {s : ParseState}
    (h : ∀ u, s.cursor.rest.head? = some u → u.kind ∉ kinds) :
    linksAll kinds node operand left s = .ok left s :=
  links_of_other h _

/-- An operator of the row takes an operand, and the row goes on. -/
theorem linksAll_of_mem (ho : Composed operand) {left : Expr} {s : ParseState} {op : Token}
    {us : List Token} (hr : s.cursor.rest = op :: us) (hk : op.kind ∈ kinds) :
    linksAll kinds node operand left s =
      (operand >>= fun right => linksAll kinds node operand (node left op right op.line))
        s.advance := by
  have hall : linksAll kinds node operand left s =
      links kinds node operand (us.length + 1) left s := by
    simp [linksAll, hr]
  rw [hall, links, bind_of_ok (accept_of_mem hr hk)]
  refine bind_congr_at rfl fun right s₁ h₁ => ?_
  have hle := (ho.frames.of_ok h₁).length_le
  rw [rest_advance, hr, List.tail_cons] at hle
  exact links_granted ho hle (Nat.le_refl _)

end

/-! ## A climb is a row of climbs -/

/-- The kinds and the node are those of a tier. -/
structure Describes (tier : Tier) (kinds : List TokenKind)
    (node : Expr → Token → Expr → Int → Expr) : Prop where
  kinds : ∀ k, k ∈ kinds ↔ Tier.of? k = some tier
  node : ∀ left op right, node left op right op.line = tier.join left op right

section

variable {tier : Tier} {kinds : List TokenKind} {node : Expr → Token → Expr → Int → Expr}
  {operand : Parse Expr}

/-- In front of a less tight operator the tier of a description is not continued. -/
theorem Describes.other (h : Describes tier kinds node) {s : ParseState}
    (hend : EndsTier tier.level s.cursor.rest) :
    ∀ u, s.cursor.rest.head? = some u → u.kind ∉ kinds := by
  intro u hu hk
  have htier : tierOf? s.cursor.rest = some tier := by
    rw [tierOf?, hu]
    exact (h.kinds u.kind).mp hk
  exact absurd (hend tier htier) (Nat.lt_irrefl _)

/-- To fold the operators of a tier and all tighter ones is to fold the tighter ones first, and then
those of the tier, each with a right operand that has no operators but tighter ones. -/
theorem climbAll_eq_links (h : Describes tier kinds node) (ho : Composed operand) (left : Expr)
    (s : ParseState) :
    climbAll operand tier.level left s =
      (climbAll operand (tier.level + 1) left >>=
        linksAll kinds node (tiers operand (tier.level + 1))) s := by
  have hc := composed_tiers ho (tier.level + 1)
  -- on the number of tokens to come, as each operator that is folded is one of them
  induction hn : s.cursor.rest.length using Nat.strongRecOn generalizing s left with
  | ind n ih =>
    by_cases hstop : EndsTier tier.level s.cursor.rest
    · rw [climbAll_of_stop hstop,
        bind_of_ok (climbAll_of_stop (hstop.mono (Nat.le_succ _))),
        linksAll_of_other (h.other hstop)]
    · obtain ⟨tier', op, us, hr, htier, hl⟩ := operator_of_not_endsTier hstop
      have hlen : s.advance.cursor.rest.length < n := by
        rw [← hn, rest_advance, hr]
        exact Nat.lt_succ_self _
      rw [climbAll_of_fold ho hr htier hl]
      rcases Nat.lt_or_eq_of_le hl with htighter | hsame
      · -- the operator is tighter: both sides fold it in the same way
        rw [bind_congr_state (climbAll_of_fold ho hr htier htighter), bind_assoc]
        refine bind_congr_at rfl fun right s₁ h₁ => ?_
        have hle := ((composed_tiers ho _).frames.of_ok h₁).length_le
        exact ih _ (by omega) _ _ rfl
      · -- it is an operator of the tier, at which the tighter climb stops
        obtain rfl := Tier.level_injective hsame
        have hend : EndsTier (tier.level + 1) s.cursor.rest := by
          intro t ht
          rw [tierOf?, hr, List.head?_cons, Option.bind_some, htier] at ht
          cases ht
          exact Nat.lt_succ_self _
        rw [bind_of_ok (climbAll_of_stop hend),
          linksAll_of_mem hc hr ((h.kinds op.kind).mpr htier)]
        refine bind_congr_at rfl fun right s₁ h₁ => ?_
        have hle := (hc.frames.of_ok h₁).length_le
        rw [h.node, ih _ (by omega) _ _ rfl, bind_of_ok (climbAll_of_stop (endsTier_tiers ho h₁))]

/-- Operands joined by operators of a tier or tighter ones are a row of operands joined by tighter
ones. -/
theorem tiers_eq_row (h : Describes tier kinds node) (ho : Composed operand) :
    tiers operand tier.level = row kinds node (tiers operand (tier.level + 1)) := by
  funext s
  rw [row_eq, tiers_eq operand (tier.level + 1), tiers_eq operand tier.level, bind_assoc]
  refine bind_congr_at rfl fun left s₁ _ => ?_
  rw [climbAll_eq_links h ho, tiers_eq]

/-! ## The six tiers -/

theorem describes_factor : Describes .factor [.slash, .star] .binary where
  kinds k := by cases k <;> decide
  node _ _ _ := rfl

theorem describes_term : Describes .term [.minus, .plus] .binary where
  kinds k := by cases k <;> decide
  node _ _ _ := rfl

theorem describes_comparison :
    Describes .comparison [.greater, .greaterEqual, .less, .lessEqual] .binary where
  kinds k := by cases k <;> decide
  node _ _ _ := rfl

theorem describes_equality : Describes .equality [.bangEqual, .equalEqual] .binary where
  kinds k := by cases k <;> decide
  node _ _ _ := rfl

theorem describes_conjunction : Describes .conjunction [.andWord] .logical where
  kinds k := by cases k <;> decide
  node _ _ _ := rfl

theorem describes_disjunction : Describes .disjunction [.orWord] .logical where
  kinds k := by cases k <;> decide
  node _ _ _ := rfl

/-- No operator binds more tightly than those of the tightest tier. -/
theorem tiers_of_tightest {least : Nat} (h : Tier.factor.level < least) :
    tiers operand least = operand := by
  have hends : ∀ rest, EndsTier least rest := by
    intro rest tier _
    have hle : tier.level ≤ Tier.factor.level := by cases tier <;> decide
    exact Nat.lt_of_le_of_lt hle h
  have hpure : climbAll operand least = pure := by
    funext left s
    exact climbAll_of_stop (hends _)
  rw [tiers_eq, hpure, bind_pure]

/-- Below the loosest tier there is nothing more to climb. -/
theorem climb_of_loosest (fuel : Nat) (left : Expr) :
    climb operand fuel 0 left = climb operand fuel Tier.disjunction.level left := by
  induction fuel generalizing left with
  | zero => rfl
  | succ fuel ih =>
    have hle : ∀ tier : Tier, Tier.disjunction.level ≤ tier.level := by
      intro tier
      cases tier <;> decide
    rw [climb_succ, climb_succ]
    simp only [ih, Nat.not_lt.mpr (hle _), Nat.not_lt_zero, if_false]

/-- No operator binds less tightly than those of the loosest tier. -/
theorem tiers_of_loosest : tiers operand 0 = tiers operand Tier.disjunction.level := by
  unfold tiers
  simp only [climb_of_loosest]

/-- The operators of the tightest tier are read as a row of operands. -/
theorem factor_eq (ho : Composed operand) : tiers operand 6 = factor operand := by
  rw [show 6 = Tier.factor.level from rfl, tiers_eq_row describes_factor ho,
    tiers_of_tightest (Nat.lt_succ_self _)]
  rfl

theorem term_eq (ho : Composed operand) : tiers operand 5 = term operand :=
  (tiers_eq_row describes_term ho).trans (congrArg _ (factor_eq ho))

theorem comparison_eq (ho : Composed operand) : tiers operand 4 = comparison operand :=
  (tiers_eq_row describes_comparison ho).trans (congrArg _ (term_eq ho))

theorem equality_eq (ho : Composed operand) : tiers operand 3 = equality operand :=
  (tiers_eq_row describes_equality ho).trans (congrArg _ (comparison_eq ho))

theorem conjunction_eq (ho : Composed operand) : tiers operand 2 = conjunction operand :=
  (tiers_eq_row describes_conjunction ho).trans (congrArg _ (equality_eq ho))

theorem disjunction_eq (ho : Composed operand) : tiers operand 1 = disjunction operand :=
  (tiers_eq_row describes_disjunction ho).trans (congrArg _ (conjunction_eq ho))

end

/-! ## The whole grammar of expressions -/

mutual

/-- Operands are read alike in both ways. -/
theorem unary_eq (room : Nat) : Parse.unary room = unary room := by
  cases room with
  | zero => rfl
  | succ room =>
    rw [Parse.unary, unary, unary_eq room, expression_eq room]

/-- Expressions are read alike in both ways. -/
theorem expression_eq (room : Nat) : Parse.expression room = expression room := by
  cases room with
  | zero => rfl
  | succ room =>
    rw [Parse.expression, expression, disjunction_eq (composed_unary room), unary_eq room,
      expression_eq room]

end

/-- At each level a climb is the step of that tier, and at any higher one it is the operand alone. -/
theorem tiers_eq_ofLevel (room level : Nat) : tiers (Parse.unary room) level = ofLevel room level := by
  have ho := composed_unary room
  rw [unary_eq] at ho ⊢
  match level with
  | 0 => exact tiers_of_loosest.trans (disjunction_eq ho)
  | 1 => exact disjunction_eq ho
  | 2 => exact conjunction_eq ho
  | 3 => exact equality_eq ho
  | 4 => exact comparison_eq ho
  | 5 => exact term_eq ho
  | 6 => exact factor_eq ho
  | level + 7 => exact tiers_of_tightest (Nat.le_add_left 7 level)

end Descent

/-- Climbing reads what recursive descent reads, one step for each tier, at every level and wherever it
starts, also where the tokens are no expression: it gives the same tree, or blames the same token for
the same cause, and it stops in the same place with the same errors noted. The expressions in
parentheses and behind a sign of assignment, which are parts of operands, are read by the same
descent. -/
theorem climbing_is_descent (room level : Nat) (s : ParseState) :
    tiers (unary room) level s = Descent.ofLevel room level s ∧
      expression room s = Descent.expression room s := by
  rw [Descent.tiers_eq_ofLevel, Descent.expression_eq]
  exact ⟨rfl, rfl⟩

end Parse

end LoxScript
