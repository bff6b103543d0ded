import Ebnf.Source.Literal

/-!
# Brackets

Three pairs of brackets enclose definitions: square ones may be left out, curly ones repeated, and
round ones group.

## Main definitions

* `Bracket` — the kind of a pair, with its two characters and the word that describes it.
* `Bracket.track` — the open brackets after one more character, each answered by its own kind.
* `bracketEnd?` — the end of the bracket that opens at a position, by counting brackets of any kind.
-/

namespace Ebnf

/-- A pair of brackets, named for what it does with the definitions in it. -/
inductive Bracket where
  /-- Square brackets: the definitions may be left out. -/
  | optional
  /-- Curly brackets: the definitions may be repeated. -/
  | repetition
  /-- Round brackets: the definitions are grouped. -/
  | group
  deriving DecidableEq, Repr

namespace Bracket

/-- The character that opens the pair. -/
def opener : Bracket → Char
  | .optional => '['
  | .repetition => '\x7b'
  | .group => '('

/-- The character that closes the pair. -/
def closer : Bracket → Char
  | .optional => ']'
  | .repetition => '\x7d'
  | .group => ')'

/-- The word that describes the pair. -/
def word : Bracket → String
  | .optional => "optional"
  | .repetition => "repetition"
  | .group => "group"

/-- The pairs. -/
def all : List Bracket := [.optional, .repetition, .group]

/-- The pair that a character opens, if it opens one. -/
def ofOpener? (c : Char) : Option Bracket := all.find? (·.opener = c)

/-- The pair that a character closes, if it closes one. -/
def ofCloser? (c : Char) : Option Bracket := all.find? (·.closer = c)

@[simp] theorem ofOpener?_opener (b : Bracket) : ofOpener? b.opener = some b := by
  cases b <;> rfl

@[simp] theorem ofCloser?_closer (b : Bracket) : ofCloser? b.closer = some b := by
  cases b <;> rfl

theorem eq_opener_of_ofOpener? {c : Char} {b : Bracket} (h : ofOpener? c = some b) :
    c = b.opener := by
  simpa [eq_comm] using List.find?_some h

theorem eq_closer_of_ofCloser? {c : Char} {b : Bracket} (h : ofCloser? c = some b) :
    c = b.closer := by
  simpa [eq_comm] using List.find?_some h

/-- The open brackets, innermost first, after one more character outside literals. A closer has to
answer the innermost one. -/
def track (opened : List Bracket) (c : Char) : Option (List Bracket) :=
  match ofOpener? c, ofCloser? c with
  | some b, _ => some (b :: opened)
  | none, none => some opened
  | none, some b =>
    match opened with
    | [] => none
    | inner :: outer => if inner = b then some outer else none

end Bracket

namespace Source

/-- How many characters stand before the bracket that brings the count of open brackets to zero.
The kinds of the brackets do not matter, and the count may fall below zero first. -/
def closingBracketFrom? : Mode → Int → List Char → Option Nat
  | _, _, [] => none
  | .plain, depth, c :: rest =>
    if (Bracket.ofOpener? c).isSome then
      (closingBracketFrom? .plain (depth + 1) rest).map (· + 1)
    else if (Bracket.ofCloser? c).isSome then
      if depth = 1 then some 0 else (closingBracketFrom? .plain (depth - 1) rest).map (· + 1)
    else (closingBracketFrom? (Mode.next .plain c) depth rest).map (· + 1)
  | mode, depth, c :: rest => (closingBracketFrom? (mode.next c) depth rest).map (· + 1)

/-- The position of the bracket that closes the one at `start`. -/
def bracketEnd? (text : List Char) (start : Nat) : Option Nat :=
  (closingBracketFrom? .plain 0 (text.drop start)).map (start + ·)

end Source

end Ebnf
