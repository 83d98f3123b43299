import Mathlib.Order.Bounds.Defs
import LoxScript.Proofs.Grammar.Prefixes

/-!
# Positions in a list of tokens

A cursor holds the tokens that are read and those that are to come. Seen from outside, it stands at
a position of the whole list (`Cursor.seek`): the token to come is the one at this position, and to
pass it is to go on to the next position, unless it is an end mark.

Boundaries between statements are positions as well (`Boundary`). Behind an error reading goes on at
the first of them that is further on (`ParseState.resumes_at_first_boundary`).
-/

namespace LoxScript

namespace Cursor

variable {ts : List Token} {p q : Nat} {t : Token}

/-- The last token of the list that is read is an end mark, given or added. -/
theorem exists_mark (ts : List Token) :
    ∃ n t, (closed ts)[n]? = some t ∧ t.kind = .endMark ∧ (closed ts).length = n + 1 := by
  obtain ⟨t, ht, hk⟩ : ∃ t, (closed ts).getLast? = some t ∧ t.kind = .endMark := by
    unfold closed
    split
    · next h =>
      obtain ⟨t, ht, hk⟩ := (Option.any_eq_true _ _).mp h
      exact ⟨t, ht, by simpa using hk⟩
    · exact ⟨closing ts, by simp, rfl⟩
  have hne : closed ts ≠ [] := by
    rintro hnil
    simp [hnil] at ht
  have hpos := List.length_pos_iff.mpr hne
  refine ⟨(closed ts).length - 1, t, ?_, hk, by omega⟩
  rw [← List.getLast?_eq_getElem?, ht]

/-! ## The cursor at a position -/

/-- The cursor at a position of a list: the tokens in front of it are read, and those up to the next
end mark are to come. -/
def seek (ts : List Token) (p : Nat) : Cursor where
  past := (ts.take p).reverse
  rest := (ts.drop p).takeWhile isProper
  stop := ((ts.drop p).find? (!isProper ·)).getD (closing ts)
  last := ts.getLast?.getD (closing ts)

/-- A cursor that is moved to a position is there. -/
theorem position_seek (h : p ≤ ts.length) : (seek ts p).position = p := by
  simp [seek, position, h]

/-- In front of an end mark no token is to come. -/
theorem seek_of_mark (ht : ts[p]? = some t) (hk : t.kind = .endMark) :
    (seek ts p).rest = [] ∧ (seek ts p).stop = t := by
  obtain ⟨hp, rfl⟩ := List.getElem?_eq_some_iff.mp ht
  have hproper : isProper ts[p] = false := by simp [isProper, hk]
  unfold seek
  rw [List.drop_eq_getElem_cons hp, List.takeWhile_cons, List.find?_cons, hproper]
  exact ⟨rfl, rfl⟩

/-- Any other token is to come, and behind it what is to come at the next position. -/
theorem seek_of_proper (ht : ts[p]? = some t) (hk : t.kind ≠ .endMark) :
    seek ts p = ⟨(seek ts p).past, t :: (seek ts (p + 1)).rest, (seek ts (p + 1)).stop,
      (seek ts p).last⟩ := by
  obtain ⟨hp, rfl⟩ := List.getElem?_eq_some_iff.mp ht
  have hproper : isProper ts[p] = true := by simp [isProper, hk]
  unfold seek
  rw [List.drop_eq_getElem_cons hp, List.takeWhile_cons, List.find?_cons, hproper]
  rfl

/-- At the next position, one more token is past. -/
theorem past_seek (ht : ts[p]? = some t) : (seek ts (p + 1)).past = t :: (seek ts p).past := by
  obtain ⟨hp, rfl⟩ := List.getElem?_eq_some_iff.mp ht
  unfold seek
  rw [List.take_succ_eq_append_getElem hp, List.reverse_append]
  rfl

/-- At a position in the list, the token at that index comes. -/
theorem current_seek (ht : ts[p]? = some t) : (seek ts p).current = t := by
  by_cases hk : t.kind = .endMark
  · obtain ⟨hrest, hstop⟩ := seek_of_mark ht hk
    rw [current, hrest, hstop]
    rfl
  · rw [seek_of_proper ht hk]
    rfl

theorem current_of_cons {c : Cursor} {u : Token} {us : List Token} (hr : c.rest = u :: us) :
    c.current = u := by
  rw [current, hr]
  rfl

/-- Passing a token moves the cursor to the next position, except at an end mark. -/
theorem advance_seek (ht : ts[p]? = some t) (hk : t.kind ≠ .endMark) :
    (seek ts p).advance = seek ts (p + 1) := by
  rw [seek_of_proper ht hk]
  unfold advance
  dsimp only
  rw [← past_seek ht]
  rfl

end Cursor

/-! ## Boundaries -/

/-- The words that start a statement. -/
def statementWords : List TokenKind :=
  [.classWord, .funWord, .varWord, .forWord, .ifWord, .whileWord, .printWord, .returnWord]

/-- The words that start a statement, spelled out. -/
theorem TokenKind.startsStatement_iff {k : TokenKind} :
    k.startsStatement = true ↔ k ∈ statementWords := by
  cases k <;> decide

/-- The positions between statements, as far as single tokens tell: at an end mark, behind a
semicolon, and in front of a word that starts a statement. -/
inductive Boundary (ts : List Token) : Nat → Prop where
  | mark {q : Nat} {t : Token} (ht : ts[q]? = some t) (hk : t.kind = .endMark) : Boundary ts q
  | semicolon {q : Nat} {t : Token} (ht : ts[q]? = some t) (hk : t.kind = .semicolon) :
      Boundary ts (q + 1)
  | word {q : Nat} {t : Token} (ht : ts[q]? = some t) (hk : t.kind ∈ statementWords) : Boundary ts q

namespace Boundary

variable {ts : List Token} {p q n : Nat} {t u : Token}

/-- A boundary is never behind the end of the list. -/
theorem le_length (h : Boundary ts q) : q ≤ ts.length := by
  cases h with
  | mark ht _ | semicolon ht _ | word ht _ =>
    have hlt := (List.getElem?_eq_some_iff.mp ht).1
    omega

/-- Behind a first token, that token and the next one decide. -/
theorem succ_iff (ht : ts[q]? = some t) (hu : ts[q + 1]? = some u) (hk : u.kind ≠ .endMark) :
    Boundary ts (q + 1) ↔ (t.kind == .semicolon || u.kind.startsStatement) = true := by
  rw [Bool.or_eq_true, beq_iff_eq, TokenKind.startsStatement_iff]
  constructor
  · intro h
    cases h with
    | mark hu' hk' =>
      cases hu.symm.trans hu'
      exact absurd hk' hk
    | semicolon ht' hk' =>
      cases ht.symm.trans ht'
      exact .inl hk'
    | word hu' hk' =>
      cases hu.symm.trans hu'
      exact .inr hk'
  · rintro (h | h)
    · exact .semicolon ht h
    · exact .word hu h

end Boundary

namespace Cursor

variable {ts : List Token} {p q n : Nat} {t u : Token}

/-- The cursor at the next boundary, which may be where it stands. -/
def toBoundary (c : Cursor) : Cursor :=
  { c with past := (skip c.past c.rest).1, rest := (skip c.past c.rest).2 }

theorem toBoundary_of_end {c : Cursor} (h : c.rest = []) : c.toBoundary = c := by
  unfold toBoundary
  rw [h, skip, ← h]

/-- Behind a token, it and the token to come tell whether the cursor stands at a boundary. -/
theorem toBoundary_of_cons {c : Cursor} {before after : List Token} (hp : c.past = t :: before)
    (hr : c.rest = u :: after) :
    c.toBoundary =
      if (t.kind == .semicolon || u.kind.startsStatement) = true then c
      else c.advance.toBoundary := by
  obtain ⟨past, rest, stop, last⟩ := c
  cases hp
  cases hr
  simp only [toBoundary, skip_cons]
  split <;> rfl

/-- Recovering passes one token and then goes on to the next boundary. -/
theorem synchronize_eq {c : Cursor} (h : c.rest ≠ []) : c.synchronize = c.advance.toBoundary := by
  obtain ⟨past, rest, stop, last⟩ := c
  cases rest with
  | nil => exact absurd rfl h
  | cons t ts => rfl

/-- Tokens are passed up to the first boundary, the position at hand included. -/
theorem toBoundary_seek (hn : ts[n]? = some u) (hmark : u.kind = .endMark) (hq : q + 1 ≤ n) :
    ∃ r, IsLeast {r | q + 1 ≤ r ∧ Boundary ts r} r ∧
      (seek ts (q + 1)).toBoundary = seek ts r := by
  induction hd : n - (q + 1) using Nat.strongRecOn generalizing q with
  | ind d ih =>
    have hlt := (List.getElem?_eq_some_iff.mp hn).1
    obtain ⟨t, ht⟩ : ∃ t, ts[q]? = some t := ⟨_, List.getElem?_eq_getElem (by omega)⟩
    obtain ⟨v, hv⟩ : ∃ v, ts[q + 1]? = some v := ⟨_, List.getElem?_eq_getElem (by omega)⟩
    by_cases hk : v.kind = .endMark
    · exact ⟨q + 1, ⟨⟨Nat.le_refl _, .mark hv hk⟩, fun r hr => hr.1⟩,
        toBoundary_of_end (seek_of_mark hv hk).1⟩
    · have hboundary := Boundary.succ_iff ht hv hk
      have hrest : (seek ts (q + 1)).rest = v :: (seek ts (q + 2)).rest := by
        rw [seek_of_proper hv hk]
      rw [toBoundary_of_cons (past_seek ht) hrest]
      split
      · next hstop =>
        exact ⟨q + 1, ⟨⟨Nat.le_refl _, hboundary.mpr hstop⟩, fun r hr => hr.1⟩, rfl⟩
      · next hstop =>
        -- there is no boundary here, so the first one further on is the first one
        have hne : q + 1 ≠ n := by
          rintro rfl
          cases hn.symm.trans hv
          exact hk hmark
        obtain ⟨r, ⟨⟨hr, hb⟩, hleast⟩, hskip⟩ := ih (n - (q + 2)) (by omega) (by omega) rfl
        rw [advance_seek hv hk, hskip]
        refine ⟨r, ⟨⟨by omega, hb⟩, fun r' hr' => hleast ⟨?_, hr'.2⟩⟩, rfl⟩
        have hne' : r' ≠ q + 1 := by
          rintro rfl
          exact hstop (hboundary.mp hr'.2)
        have hle := hr'.1
        omega

end Cursor

namespace ParseState

open Cursor

/-- To recover from an error at some token, reading goes on at the first boundary behind that token,
which is passed in any case, be it a word that starts a statement. Neither another boundary nor an
end mark is passed, nothing else is changed, and at an end mark nothing is changed at all. -/
theorem resumes_at_first_boundary (ts : List Token) {p : Nat} {t : Token}
    (ht : (closed ts)[p]? = some t) (noted : List SyntaxError) (panicked : Bool) :
    let s : ParseState := ⟨seek (closed ts) p, noted, panicked⟩
    s.cursor.position = p ∧ s.cursor.current = t ∧
      (t.kind = .endMark → s.synchronize = s) ∧
      (t.kind ≠ .endMark →
        ∃ q, IsLeast {q | p < q ∧ Boundary (closed ts) q} q ∧
          s.synchronize = ⟨seek (closed ts) q, noted, panicked⟩ ∧
          s.synchronize.cursor.position = q) := by
  intro s
  have hlt := (List.getElem?_eq_some_iff.mp ht).1
  refine ⟨position_seek (Nat.le_of_lt hlt), current_seek ht, fun hk => ?_, fun hk => ?_⟩
  · have hrest : s.cursor.rest = [] := (seek_of_mark ht hk).1
    unfold synchronize Cursor.synchronize
    rw [hrest]
  · obtain ⟨n, u, hn, hmark, hlength⟩ := exists_mark ts
    -- the token is no end mark, so that there is one further on
    have hne : p ≠ n := by
      rintro rfl
      cases hn.symm.trans ht
      exact hk hmark
    obtain ⟨q, hleast, hboundary⟩ := toBoundary_seek (q := p) hn hmark (by omega)
    have hrest : s.cursor.rest ≠ [] := by
      have hseek : s.cursor = _ := seek_of_proper ht hk
      simp [hseek]
    have hsynchronize : s.synchronize = ⟨seek (closed ts) q, noted, panicked⟩ := by
      unfold synchronize
      rw [synchronize_eq hrest, advance_seek ht hk, hboundary]
    refine ⟨q, hleast, hsynchronize, ?_⟩
    rw [hsynchronize]
    exact position_seek hleast.1.2.le_length

/-- A word that starts a statement, at a place where it cannot stand. -/
def strayClass : List Token :=
  [⟨.number, "1", .nil, 1⟩, ⟨.classWord, "class", .nil, 1⟩, ⟨.identifier, "A", .nil, 1⟩,
   ⟨.semicolon, ";", .nil, 1⟩, ⟨.printWord, "print", .nil, 2⟩]

/-- The word itself is passed, and with it all that is in front of the next statement. -/
theorem strayClass_is_passed :
    (closed strayClass)[1]? = some ⟨.classWord, "class", .nil, 1⟩ ∧
      IsLeast {q | 1 < q ∧ Boundary (closed strayClass) q} 4 ∧
      (⟨seek (closed strayClass) 1, [], false⟩ : ParseState).synchronize =
        ⟨seek (closed strayClass) 4, [], false⟩ := by
  obtain ⟨-, -, -, hpasses⟩ := resumes_at_first_boundary strayClass (p := 1) rfl [] false
  obtain ⟨q, hleast, hsynchronize, hposition⟩ := hpasses (by decide)
  obtain rfl : 4 = q := hposition
  exact ⟨rfl, hleast, hsynchronize⟩

end ParseState

end LoxScript
