import LoxScript.Decimal.Binary

/-!
# The shortest decimal that reads back

Every real number strictly between the midpoints to the two neighbours of a double rounds to that
double; the midpoints themselves do if its mantissa is even. Among the decimals in this interval,
`Magnitude.shortest` picks one with the fewest digits, and of several with that many the one nearest
to the double; of two at equal distance it takes the even one.

All comparisons are between natural numbers: the double, its interval and the decimals are brought
to one denominator.
-/

namespace LoxScript.Decimal

/-- The decimal number `digits * 10 ^ exponent`. -/
structure Scaled where
  /-- The digits, as one natural number. -/
  digits : Nat
  /-- The power of ten of the last digit. -/
  exponent : Int
deriving DecidableEq, Repr

/-- The numbers that round to one double, as fractions with the denominator `den`. -/
structure Interval where
  /-- The numerator of the lower end. -/
  low : Nat
  /-- The numerator of the double itself. -/
  value : Nat
  /-- The numerator of the upper end. -/
  high : Nat
  /-- The common denominator. -/
  den : Nat
  /-- Whether the two ends belong to the interval. -/
  closed : Bool
deriving DecidableEq, Repr

/-- The interval of a magnitude. Its ends lie half a gap away, so all is counted in quarters of a
unit of the mantissa. -/
def Magnitude.interval (m : Magnitude) : Interval :=
  let up := Nat.pow 2 (m.exponent - 2).toNat
  { low := (4 * m.mantissa - if m.narrowBelow then 1 else 2) * up
    value := 4 * m.mantissa * up
    high := (4 * m.mantissa + 2) * up
    den := Nat.pow 2 (2 - m.exponent).toNat
    closed := m.mantissa % 2 == 0 }

/-- The number of decimal digits of `n`. -/
def digitCount (n : Nat) : Nat := (Nat.toDigits 10 n).length

/-- The power of ten of the first digit of `num / den`, for a positive fraction. -/
def leadingExponent (num den : Nat) : Int :=
  if den ≤ num then (digitCount (num / den) : Int) - 1
  else -(digitCount ((den - 1) / num) : Int)

/-- `d * 10 ^ k` on the scale of the interval: a pair of numerators, of the decimal and of the unit
one, that are comparable after the interval's own numerators are multiplied by the second. -/
def gridScale (den : Nat) (k : Int) : Nat × Nat :=
  (den * Nat.pow 10 k.toNat, Nat.pow 10 (-k).toNat)

/-- Whether `n`, a numerator scaled by `unit`, lies in the interval. -/
def Interval.holds (i : Interval) (unit n : Nat) : Bool :=
  if i.closed then i.low * unit ≤ n && n ≤ i.high * unit
  else i.low * unit < n && n < i.high * unit

/-- The neighbour of the double on the grid of the multiples of `10 ^ k` that reads back, if one
does; the nearer if both do, and the even one if they are equally near. -/
def Interval.onGrid? (i : Interval) (k : Int) : Option Nat :=
  let (step, unit) := gridScale i.den k
  let value := i.value * unit
  let below := value / step
  let above := below + 1
  let lower := i.holds unit (below * step)
  let upper := i.holds unit (above * step)
  if lower && upper then
    let down := value - below * step
    let up := above * step - value
    if down < up || (down == up && below % 2 == 0) then some below else some above
  else if lower then some below
  else if upper then some above
  else none

/-- Drops the zeros at the end of the digits. At most `fuel` are dropped. -/
def Scaled.stripped : Nat → Scaled → Scaled
  | 0, s => s
  | fuel + 1, s =>
    if s.digits ≠ 0 ∧ s.digits % 10 = 0 then stripped fuel ⟨s.digits / 10, s.exponent + 1⟩ else s

/-- Tries the grids with `count`, `count + 1`, … digits; the first decimal that reads back is the
result. The grid after the last one is taken as it comes. -/
def Interval.search (i : Interval) (leading : Int) : (tries count : Nat) → Scaled
  | 0, count =>
    let k := leading - count + 1
    let (step, unit) := gridScale i.den k
    ⟨i.value * unit / step, k⟩
  | tries + 1, count =>
    let k := leading - count + 1
    match i.onGrid? k with
    | some d => ⟨d, k⟩
    | none => i.search leading tries (count + 1)

/-- The shortest decimal that reads back as the magnitude. Seventeen digits always suffice. -/
def Magnitude.shortest (m : Magnitude) : Scaled :=
  if m.mantissa = 0 then ⟨0, 0⟩
  else
    let i := m.interval
    (i.search (leadingExponent i.value i.den) 17 1).stripped 20

end LoxScript.Decimal
