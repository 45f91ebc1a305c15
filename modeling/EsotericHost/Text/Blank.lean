/-!
# Blank characters

A character is blank when it has the `White_Space` property of the Unicode standard. Trimming a
text, skipping an empty line and separating words all use this one class.
-/

namespace EsotericHost.Text

/-- The characters with the `White_Space` property. -/
def isBlank (c : Char) : Bool :=
  let n := c.toNat
  (9 ≤ n && n ≤ 13) || n == 0x20 || n == 0x85 || n == 0xA0 || n == 0x1680 ||
    (0x2000 ≤ n && n ≤ 0x200A) || n == 0x2028 || n == 0x2029 || n == 0x202F || n == 0x205F ||
    n == 0x3000

/-- The text without the blank characters at both ends. -/
def trimChars (cs : List Char) : List Char :=
  ((cs.dropWhile isBlank).reverse.dropWhile isBlank).reverse

/-- A text of nothing but blank characters. -/
def isBlankLine (s : String) : Bool :=
  s.toList.all isBlank

end EsotericHost.Text
