/-!
# Blank characters

The characters that may surround a number or a truth value in a text. They are
the characters with the `White_Space` property, which is a wider class than the
blanks of ASCII.
-/

namespace OpGraph.Text

/-- The `White_Space` property: tab to carriage return, space, next line,
no-break space, the Ogham space mark, the typographic spaces from en quad to
hair space, the two separators, and the narrow, mathematical and ideographic
spaces. -/
def isBlank (c : Char) : Bool :=
  let n := c.toNat
  (0x0009 ≤ n && n ≤ 0x000D) || n == 0x0020 || n == 0x0085 || n == 0x00A0 ||
    n == 0x1680 || (0x2000 ≤ n && n ≤ 0x200A) || n == 0x2028 || n == 0x2029 ||
    n == 0x202F || n == 0x205F || n == 0x3000

/-- A text without the blanks at its two ends. -/
def trim (cs : List Char) : List Char :=
  ((cs.dropWhile isBlank).reverse.dropWhile isBlank).reverse

end OpGraph.Text
