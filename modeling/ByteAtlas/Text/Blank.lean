/-
Blank characters (the property `White_Space` of the Unicode character database) and trimming.
-/
namespace ByteAtlas.Text

/-- the characters that stand for space or a new line -/
def isBlank (c : Char) : Bool :=
  let n := c.toNat
  (9 ≤ n && n ≤ 13) || n == 0x20 || n == 0x85 || n == 0xa0 || n == 0x1680 || (0x2000 ≤ n && n ≤ 0x200a) ||
    n == 0x2028 || n == 0x2029 || n == 0x202f || n == 0x205f || n == 0x3000

/-- the text without the blanks at its end -/
def trimEnd (cs : List Char) : List Char := (cs.reverse.dropWhile isBlank).reverse

/-- the text without the blanks at either end -/
def trim (cs : List Char) : List Char := trimEnd (cs.dropWhile isBlank)

example : trim "\u00a0 a b\u2003\n".toList = ['a', ' ', 'b'] := by decide

end ByteAtlas.Text
