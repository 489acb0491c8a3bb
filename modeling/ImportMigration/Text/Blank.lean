/-! # Blank characters

The characters that separate words and that trimming removes: the Unicode property `White_Space`.
It holds the ASCII blanks, the next-line character U+0085, the no-break space, the typographic
spaces and the two Unicode separators, and it does not hold zero-width characters.

* `isBlank`: the property as a test on one character. -/

namespace ImportMigration.Text

/-- Whether a character has the Unicode property `White_Space`. -/
def isBlank (c : Char) : Bool :=
  let n := c.toNat
  (9 ≤ n && n ≤ 13) || n == 32 || n == 0x85 || n == 0xA0 || n == 0x1680
    || (0x2000 ≤ n && n ≤ 0x200A) || n == 0x2028 || n == 0x2029 || n == 0x202F
    || n == 0x205F || n == 0x3000

end ImportMigration.Text
