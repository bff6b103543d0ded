import Ebnf.Text.Printable

/-!
# Quoted text

A message or a printed tree shows a text between quotation marks, on one line and with every
character visible. Apostrophes are the marks, unless the text has an apostrophe and no double
quote; the mark itself and the backslash are written after a backslash, the newline, the carriage
return and the tab have short names, and every other unprintable character is written by its code
point in hexadecimal.

## Main definitions

* `Quoted.mark` — the quotation mark for a text.
* `Quoted.encodeChar` — what is written for one character.
* `quote` — the text between marks.
-/

namespace Ebnf.Text

namespace Quoted

/-- The quotation mark in which a text is shown. -/
def mark (text : List Char) : Char :=
  if '\'' ∈ text ∧ '"' ∉ text then '"' else '\''

/-- The last `width` hexadecimal digits of a number, in lower case. -/
def hex : Nat → Nat → List Char
  | 0, _ => []
  | width + 1, n => hex width (n / 16) ++ [Nat.digitChar (n % 16)]

/-- The code point of a character after the letter that tells the number of its digits. -/
def encodeCode (code : Nat) : List Char :=
  if code ≤ 0xff then '\\' :: 'x' :: hex 2 code
  else if code ≤ 0xffff then '\\' :: 'u' :: hex 4 code
  else '\\' :: 'U' :: hex 8 code

/-- What is written for a character between the given marks. -/
def encodeChar (delimiter c : Char) : List Char :=
  if c = delimiter ∨ c = '\\' then ['\\', c]
  else if c = '\n' then ['\\', 'n']
  else if c = '\r' then ['\\', 'r']
  else if c = '\t' then ['\\', 't']
  else if isPrintable c then [c]
  else encodeCode c.toNat

/-- A text as it is shown, between marks. These are double quotes only where the text has a single
quote and no double one. -/
def encode (text : List Char) : List Char :=
  mark text :: (text.flatMap (encodeChar (mark text)) ++ [mark text])

end Quoted

/-- The quoted form of a text, which stands on one line and can be read back. -/
def quote (text : String) : String := String.ofList (Quoted.encode text.toList)

end Ebnf.Text
