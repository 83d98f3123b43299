import Mathlib.Data.Nat.Digits.Defs
import LoxScript.Decimal.Numeral
import LoxScript.Value

/-!
# The text of a number

The text of a finite number begins with a digit, or with the sign of a negative one and a digit, and
it holds nothing but digits, a point, and an exponent with its sign (`Value.numeric_displayNumber`). So
it is no word, and there are neither blanks nor brackets in it.
-/

namespace LoxScript

namespace Decimal

/-- Whether `c` can stand in the text of a finite number. -/
def inNumber (c : Char) : Bool := isDigit c || ['.', 'e', '+', '-'].contains c

/-- The text of a number without its sign. -/
structure Numeric (cs : List Char) : Prop where
  all : ∀ c ∈ cs, inNumber c = true
  starts : ∃ d rest, cs = d :: rest ∧ isDigit d = true

/-- The characters are digits, at least one. -/
structure Digits (ds : List Char) : Prop where
  all : ∀ d ∈ ds, isDigit d = true
  ne_nil : ds ≠ []

/-- A natural number is written with digits. -/
theorem digits_digitsOf (n : Nat) : Digits (digitsOf n) where
  all c hc := by
    have hdigit := Nat.isDigit_of_mem_toDigits (by decide) (by decide) hc
    simpa [Char.isDigit, isDigit, Char.le_def] using hdigit
  ne_nil := Nat.toDigits_ne_nil

theorem inNumber_of_mem_zeros {n : Nat} {c : Char} (h : c ∈ List.replicate n '0') :
    inNumber c = true := by
  rw [List.eq_of_mem_replicate h]
  decide

section

variable {ds cs : List Char} (hds : Digits ds)

include hds

theorem Digits.inNumber {c : Char} (h : c ∈ ds) : inNumber c = true := by
  simp [Decimal.inNumber, hds.all c h]

/-- Digits and what can follow them in a number. -/
theorem Digits.numeric (hcs : ∀ c ∈ cs, Decimal.inNumber c = true) : Numeric (ds ++ cs) where
  all c hc := (List.mem_append.mp hc).elim hds.inNumber (hcs c)
  starts := by
    obtain ⟨d, rest, rfl⟩ := List.exists_cons_of_ne_nil hds.ne_nil
    exact ⟨d, rest ++ cs, rfl, hds.all d (by simp)⟩

theorem Digits.take {n : Nat} (hn : 0 < n) : Digits (ds.take n) where
  all d hd := hds.all d (List.mem_of_mem_take hd)
  ne_nil := by
    rw [Ne, List.take_eq_nil_iff]
    rintro (rfl | hnil)
    · exact absurd hn (by simp)
    · exact hds.ne_nil hnil

/-- A number without an exponent is written like a number. -/
theorem numeric_positional (leading : Int) : Numeric (Value.layout.positional ds leading) := by
  have hsuffix : ∀ c ∈ Value.layout.wholeSuffix.toList, Decimal.inNumber c = true :=
    List.all_eq_true.mp (by decide)
  unfold Layout.positional
  split
  · have hzero : Digits ['0'] := ⟨List.all_eq_true.mp (by decide), by simp⟩
    have hbehind : ∀ c ∈ '.' :: (List.replicate (-leading - 1).toNat '0' ++ ds),
        Decimal.inNumber c = true := by
      intro c hc
      rcases List.mem_cons.mp hc with rfl | hc
      · decide
      · exact (List.mem_append.mp hc).elim inNumber_of_mem_zeros hds.inNumber
    exact hzero.numeric hbehind
  · dsimp only
    split
    · rw [List.append_assoc]
      refine hds.numeric fun c hc => ?_
      exact (List.mem_append.mp hc).elim inNumber_of_mem_zeros (hsuffix c)
    · refine (hds.take (Nat.succ_pos _)).numeric fun c hc => ?_
      rcases List.mem_cons.mp hc with rfl | hc
      · decide
      · exact hds.inNumber (List.mem_of_mem_drop hc)

theorem numeric_scientific (leading : Int) : Numeric (Value.layout.scientific ds leading) := by
  have hfraction : ∀ c ∈ if (ds.drop 1).isEmpty then [] else '.' :: ds.drop 1,
      Decimal.inNumber c = true := by
    intro c hc
    split at hc
    · cases hc
    · rcases List.mem_cons.mp hc with rfl | hc
      · decide
      · exact hds.inNumber (List.mem_of_mem_drop hc)
  have hsign : ∀ c ∈ if leading < 0 then ['-'] else Value.layout.plus.toList,
      Decimal.inNumber c = true := by
    split <;> exact List.all_eq_true.mp (by decide)
  have hexponent : ∀ c ∈ padded Value.layout.exponentWidth (digitsOf leading.natAbs),
      Decimal.inNumber c = true := by
    intro c hc
    exact (List.mem_append.mp hc).elim inNumber_of_mem_zeros (digits_digitsOf _).inNumber
  have hmark : ∀ c ∈ Value.layout.mark.toList, Decimal.inNumber c = true :=
    List.all_eq_true.mp (by decide)
  unfold Layout.scientific
  simp only [List.append_assoc]
  refine (hds.take Nat.one_pos).numeric fun c hc => ?_
  rcases List.mem_append.mp hc with hc | hc
  · exact hfraction c hc
  rcases List.mem_append.mp hc with hc | hc
  · exact hmark c hc
  · exact (List.mem_append.mp hc).elim (hsign c) (hexponent c)

end

theorem numeric_unsigned (s : Scaled) : Numeric (Value.layout.unsigned s) := by
  unfold Layout.unsigned
  dsimp only
  split
  · exact numeric_scientific (digits_digitsOf _) _
  · exact numeric_positional (digits_digitsOf _) _

end Decimal

open Decimal

/-- The text of a finite number is that of a number without its sign, behind the sign. -/
theorem Value.numeric_displayNumber {x : Float} {negative : Bool} {m : Magnitude}
    (h : Reading.of x = .finite negative m) :
    ∃ cs, Numeric cs ∧ (displayNumber x).toList = signChars negative ++ cs := by
  unfold displayNumber Layout.write
  rw [h]
  dsimp only
  cases m.whole? with
  | some n =>
    have hdigits : Numeric (digitsOf n ++ []) := (digits_digitsOf n).numeric (by simp)
    rw [List.append_nil] at hdigits
    exact ⟨digitsOf n, hdigits, String.toList_ofList⟩
  | none => exact ⟨layout.unsigned m.shortest, numeric_unsigned _, String.toList_ofList⟩

end LoxScript
