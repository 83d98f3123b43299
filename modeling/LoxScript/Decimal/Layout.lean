import LoxScript.Decimal.Shortest

/-!
# How a number is written

A `Layout` holds the decisions that turn the digits of a number into its text: from which size on it
is written with an exponent, what the exponent looks like, and how a whole number and the three
special values are written. `Layout.write` follows them; the digits themselves are those of the
shortest decimal that reads back.
-/

namespace LoxScript.Decimal

/-- The decisions of a written form. -/
structure Layout where
  /-- Numbers whose first digit stands at a power of ten below this one have an exponent. -/
  positionalFrom : Int
  /-- Numbers whose first digit stands at this power of ten or above have an exponent. -/
  exponentFrom : Int
  /-- What follows the digits of a whole number that is written without exponent. -/
  wholeSuffix : String
  /-- The mark between the digits and the exponent. -/
  mark : String
  /-- The sign of an exponent that is not negative. -/
  plus : String
  /-- The least number of digits of an exponent. -/
  exponentWidth : Nat
  /-- The text of what is not a number. -/
  nan : String
  /-- The text of infinity. -/
  infinity : String
deriving Repr

/-- The digits of `n` in base ten. -/
def digitsOf (n : Nat) : List Char := Nat.toDigits 10 n

/-- `cs` with zeros in front, up to `width` characters. -/
def padded (width : Nat) (cs : List Char) : List Char :=
  List.replicate (width - cs.length) '0' ++ cs

/-- The digits `ds`, of which the first stands at the power of ten `leading`, without exponent. -/
def Layout.positional (layout : Layout) (ds : List Char) (leading : Int) : List Char :=
  if leading < 0 then
    '0' :: '.' :: (List.replicate (-leading - 1).toNat '0' ++ ds)
  else
    let count := leading.toNat + 1
    if ds.length ≤ count then
      ds ++ List.replicate (count - ds.length) '0' ++ layout.wholeSuffix.toList
    else
      ds.take count ++ '.' :: ds.drop count

/-- The digits `ds`, of which the first stands at the power of ten `leading`, with an exponent. -/
def Layout.scientific (layout : Layout) (ds : List Char) (leading : Int) : List Char :=
  let fraction := ds.drop 1
  ds.take 1 ++ (if fraction.isEmpty then [] else '.' :: fraction) ++ layout.mark.toList ++
    (if leading < 0 then ['-'] else layout.plus.toList) ++
    padded layout.exponentWidth (digitsOf leading.natAbs)

/-- A decimal without its sign. -/
def Layout.unsigned (layout : Layout) (s : Scaled) : List Char :=
  let ds := digitsOf s.digits
  let leading := s.exponent + ds.length - 1
  if leading < layout.positionalFrom || layout.exponentFrom ≤ leading then
    layout.scientific ds leading
  else
    layout.positional ds leading

/-- The minus sign of a negative number. -/
def signChars (negative : Bool) : List Char := if negative then ['-'] else []

/-- The text of a number. -/
def Layout.write (layout : Layout) (x : Float) : String :=
  match Reading.of x with
  | .nan => layout.nan
  | .infinite negative => String.ofList (signChars negative) ++ layout.infinity
  | .finite negative m => String.ofList (signChars negative ++ layout.unsigned m.shortest)

end LoxScript.Decimal
