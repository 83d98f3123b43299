/-!
# Binary floating-point numbers, taken apart

A double is an exact rational number, an infinity or not a number. `Magnitude` is the exact value
of a finite double without its sign, as a natural number times a power of two; together with the
gap to the double below it, it determines which decimals read back as the same double.
-/

namespace LoxScript.Decimal

/-- A finite double without its sign: the number `mantissa * 2 ^ exponent`. -/
structure Magnitude where
  /-- The integer part of the scaled value. -/
  mantissa : Nat
  /-- The power of two it is scaled by. -/
  exponent : Int
  /-- Whether the next double below is only half as far away as the next one above: this is so
  where the mantissa starts a new binade. -/
  narrowBelow : Bool
deriving DecidableEq, Repr

/-- What the bits of a double stand for. -/
inductive Reading where
  | nan
  | infinite (negative : Bool)
  | finite (negative : Bool) (magnitude : Magnitude)
deriving DecidableEq, Repr

/-- Reads the three fields of a double: one sign bit, eleven bits of exponent, 52 of fraction. -/
def Reading.ofBits (bits : Nat) : Reading :=
  let negative := bits / Nat.pow 2 63 % 2 == 1
  let field : Nat := bits / Nat.pow 2 52 % Nat.pow 2 11
  let fraction : Nat := bits % Nat.pow 2 52
  if field == 2047 then
    if fraction == 0 then .infinite negative else .nan
  else if field == 0 then
    .finite negative ⟨fraction, -1074, false⟩
  else
    .finite negative ⟨Nat.pow 2 52 + fraction, (field : Int) - 1075, fraction == 0 && field != 1⟩

/-- The sign and the magnitude of a double. -/
def Reading.of (x : Float) : Reading := .ofBits x.toBits.toNat

/-- The value of a magnitude as a fraction of natural numbers. -/
def Magnitude.fraction (m : Magnitude) : Nat × Nat :=
  (m.mantissa * Nat.pow 2 m.exponent.toNat, Nat.pow 2 (-m.exponent).toNat)

/-- The value of a magnitude, if it is a whole number. -/
def Magnitude.whole? (m : Magnitude) : Option Nat :=
  let (num, den) := m.fraction
  if num % den == 0 then some (num / den) else none

end LoxScript.Decimal
