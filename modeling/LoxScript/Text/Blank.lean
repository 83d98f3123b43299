/-!
# Blank characters

Which characters count as white space when a typed line is trimmed. The set is the one of the
Unicode property `White_Space` together with the four ASCII separators U+001C to U+001F; the zero
width space U+200B is not in it.
-/

namespace LoxScript.Text

/-- Whether `c` counts as white space. -/
def isBlank (c : Char) : Bool :=
  let n := c.toNat
  (0x09 ≤ n && n ≤ 0x0D) || (0x1C ≤ n && n ≤ 0x20) || n == 0x85 || n == 0xA0 || n == 0x1680 ||
    (0x2000 ≤ n && n ≤ 0x200A) || n == 0x2028 || n == 0x2029 || n == 0x202F || n == 0x205F ||
    n == 0x3000

/-- The text without the white space at both of its ends. -/
def trimmed (cs : List Char) : List Char :=
  ((cs.dropWhile isBlank).reverse.dropWhile isBlank).reverse

/-- `trimmed` on strings. -/
def trim (s : String) : String := String.ofList (trimmed s.toList)

end LoxScript.Text
