import LoxScript.Text.Blank
import LoxScript.Text.Digit

/-!
# Reading numbers

A numeral of the language is a run of digits, perhaps followed by a point and another run; its value
is the double nearest to the decimal it denotes. `read?` reads any text that denotes a number, in a
wider form: with a sign, an exponent, underscores between digits, digits of other scripts, blanks around
it, or as a word for one of the special values. Numerals are such texts, and have the same value there.
-/

namespace LoxScript.Decimal

/-- Whether `c` is one of the ten digits. -/
def isDigit (c : Char) : Bool := '0' ≤ c && c ≤ '9'

/-- The value of a run of digits. -/
def valueOf (ds : List Char) : Nat := ds.foldl (fun n c => 10 * n + (c.toNat - 48)) 0

/-- The double nearest to the decimal with the given digits before and after the point. -/
def ofDigits (whole fraction : List Char) : Float :=
  Float.ofScientific (valueOf (whole ++ fraction)) true fraction.length

/-- The double nearest to `digits * 10 ^ exponent`. Decimals far beyond the range of a double are
taken as zero or infinity without computing the power. -/
def ofScaled (digits : Nat) (exponent : Int) : Float :=
  if digits = 0 then 0
  else if exponent < 0 then
    let reach : Int := (Nat.log2 digits : Int) + 400
    if -exponent > reach then 0 else Float.ofScientific digits true exponent.natAbs
  else if exponent > 400 then 1.0 / 0.0
  else Float.ofScientific digits false exponent.natAbs

/-- A run of digits at the start of `cs`, in which single underscores may stand between two digits:
the digits, and the rest. -/
def digitRun : List Char → List Char × List Char
  | [] => ([], [])
  | [c] => if isDigit c then ([c], []) else ([], [c])
  | c :: d :: rest =>
    if isDigit c then
      let (ds, after) :=
        if d == '_' && (rest.head?.any isDigit) then digitRun rest else digitRun (d :: rest)
      (c :: ds, after)
    else ([], c :: d :: rest)

/-- A sign at the start of `cs`: whether it is a minus, and the rest. -/
def signOf : List Char → Bool × List Char
  | '-' :: rest => (true, rest)
  | '+' :: rest => (false, rest)
  | rest => (false, rest)

/-- The exponent that `cs` consists of. -/
def exponentOf? : List Char → Option Int
  | [] => none
  | c :: rest =>
    if c == 'e' || c == 'E' then
      let (negative, unsigned) := signOf rest
      match digitRun unsigned with
      | ([], _) => none
      | (ds, []) => some (if negative then -(valueOf ds : Int) else valueOf ds)
      | (_, _ :: _) => none
    else none

/-- Reads an unsigned decimal. Without an exponent it is a numeral. -/
def unsigned? (cs : List Char) : Option Float :=
  let (whole, afterWhole) := digitRun cs
  let (fraction, afterFraction) :=
    match afterWhole with
    | '.' :: rest => digitRun rest
    | rest => ([], rest)
  if whole.isEmpty && fraction.isEmpty then none
  else if afterFraction.isEmpty then some (ofDigits whole fraction)
  else
    (exponentOf? afterFraction).map fun e =>
      ofScaled (valueOf (whole ++ fraction)) (e - fraction.length)

/-- Reads the number that a text denotes. -/
def read? (s : String) : Option Float :=
  let (negative, unsigned) := signOf ((Text.trimmed s.toList).map Text.plainDigit)
  let word := String.ofList (unsigned.map Char.toLower)
  let magnitude :=
    if word == "nan" then some (0.0 / 0.0)
    else if word == "inf" || word == "infinity" then some (1.0 / 0.0)
    else unsigned? unsigned
  magnitude.map fun x => if negative then -x else x

end LoxScript.Decimal
