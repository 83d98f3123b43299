import LoxScript.Decimal.Layout
import LoxScript.Text.Quoted

/-!
# Values

What expressions evaluate to: nothing, a truth value, a number or a text. The module fixes which
values count as true, when two values are equal, and the two ways of writing a value: `display` is
what the program prints, `inspect` is what dumps show.
-/

namespace LoxScript

/-- A value of the language. -/
inductive Value where
  /-- The absence of a value. -/
  | nil
  | bool (b : Bool)
  /-- A number; all numbers are doubles. -/
  | number (x : Float)
  | text (s : String)
  /-- A whole number in exact form. Only trees and tokens built by hand hold one: no operation
  yields it, and none takes it for a number. -/
  | integer (n : Int)
deriving DecidableEq, Inhabited

namespace Value

/-- Whether a value counts as true: all do but `nil` and `false`. -/
def truthy : Value → Bool
  | nil => false
  | bool b => b
  | _ => true

/-- Equality of the language. Values of different sorts differ, and numbers compare as doubles do,
so that the two zeros are equal and what is not a number differs from itself. -/
def equal : Value → Value → Bool
  | nil, nil => true
  | bool a, bool b => a == b
  | number x, number y => x == y
  | text s, text t => s == t
  | integer m, integer n => m == n
  | _, _ => false

/-- The whole number that a double is, if it is one. -/
def whole? (x : Float) : Option Int :=
  match Decimal.Reading.of x with
  | .finite negative m => m.whole?.map fun n => if negative then -(n : Int) else n
  | _ => none

/-- The whole number that a value stands for, where a truth value stands for one or zero. -/
def asWhole? : Value → Option Int
  | bool b => some (if b then 1 else 0)
  | number x => whole? x
  | integer n => some n
  | _ => none

/-- Equality by numeric value: values of different sorts agree if they stand for one whole number. -/
def loosely (v w : Value) : Bool :=
  v.equal w || (v.asWhole?.isSome && v.asWhole? == w.asWhole?)

/-- Whether the value is a number. -/
def isNumber : Value → Bool
  | number _ => true
  | _ => false

/-- Whether the value is a text. -/
def isText : Value → Bool
  | text _ => true
  | _ => false

/-- Numbers have an exponent below `1e-4` and from `1e16` on; the exponent has a sign and at least
two digits, and a whole number without exponent keeps one place. -/
def layout : Decimal.Layout where
  positionalFrom := -4
  exponentFrom := 16
  wholeSuffix := ".0"
  mark := "e"
  plus := "+"
  exponentWidth := 2
  nan := "nan"
  infinity := "inf"

/-- A number as `print` writes it: a whole number by all its digits, any other in the shortest form
that reads back. -/
def displayNumber (x : Float) : String :=
  match Decimal.Reading.of x with
  | .finite negative m =>
    match m.whole? with
    | some n => String.ofList (Decimal.signChars negative ++ Decimal.digitsOf n)
    | none => layout.write x
  | _ => layout.write x

/-- A value as `print` writes it. -/
def display : Value → String
  | nil => "nil"
  | bool b => if b then "true" else "false"
  | number x => displayNumber x
  | text s => s
  | integer n => toString n

/-- A value as dumps show it. -/
def inspect : Value → String
  | nil => "None"
  | bool b => if b then "True" else "False"
  | number x => layout.write x
  | text s => Text.quoted s
  | integer n => toString n

end Value

end LoxScript
