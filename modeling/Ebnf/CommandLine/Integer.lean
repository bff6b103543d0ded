import Ebnf.Text.Blank
import Ebnf.Text.Digit

/-!
# Integers on the command line

An integer is a run of decimal digits of any script, with a sign before it if wanted. A single
underscore may stand between two digits, and blanks around the whole. More than 4300 digits are
refused.

## Main definitions

* `readInteger?` — the integer that a text denotes.
-/

namespace Ebnf.CommandLine

open Text (digitValue? strip)

/-- The number of digits that an integer may have. -/
def maxDigits : Nat := 4300

/-- The values of digits, between which single underscores may stand. -/
def digitValues? : List Char → Option (List Nat)
  | [] => none
  | [c] => (digitValue? c).map ([·])
  | c :: '_' :: rest => do return (← digitValue? c) :: (← digitValues? rest)
  | c :: rest => do return (← digitValue? c) :: (← digitValues? rest)

/-- The number that digits denote, if there are not too many of them. Single underscores may stand
between digits, but not before or after them. -/
def readNatural? (text : List Char) : Option Nat := do
  let values ← digitValues? text
  if values.length ≤ maxDigits then some (values.foldl (10 * · + ·) 0) else none

/-- The integer that a text denotes: blanks around it are ignored, and one sign may stand before its
digits. -/
def readInteger? (text : String) : Option Int :=
  match strip text.toList with
  | '-' :: rest => (readNatural? rest).map fun n => -(n : Int)
  | '+' :: rest => (readNatural? rest).map fun n => (n : Int)
  | rest => (readNatural? rest).map fun n => (n : Int)

end Ebnf.CommandLine
