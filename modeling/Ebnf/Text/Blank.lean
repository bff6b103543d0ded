import Ebnf.Text.Ranges

/-!
# Blank characters

A blank separates without meaning anything: outside literals a grammar text may hold any number of
them. The class has the white-space characters of Unicode and the four information separators
U+001C to U+001F. Zero-width characters such as U+200B are not blank.

## Main definitions

* `isBlank` — the class.
* `isBlankText`, `strip` — texts of blanks only, and a text without the blanks at its two ends.
-/

namespace Ebnf.Text

/-- The blanks, as ranges of code points from the first to the last. -/
def blankRanges : List (Nat × Nat) :=
  [(0x9, 0xd), (0x1c, 0x20), (0x85, 0x85), (0xa0, 0xa0), (0x1680, 0x1680), (0x2000, 0x200a),
    (0x2028, 0x2029), (0x202f, 0x202f), (0x205f, 0x205f), (0x3000, 0x3000)]

/-- Whether a character is blank. -/
def isBlank (c : Char) : Bool := inRanges blankRanges c.toNat

/-- Whether a text has nothing but blanks. -/
def isBlankText (text : List Char) : Bool := text.all isBlank

/-- The text without the blanks at its two ends. -/
def strip (text : List Char) : List Char :=
  ((text.dropWhile isBlank).reverse.dropWhile isBlank).reverse

end Ebnf.Text
