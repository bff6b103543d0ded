/-!
# Literals

A literal stands between double quotes. Within it a backslash takes the next character along,
whatever that is, so an escaped quote does not end the literal. Whether a character of a text
belongs to a literal is decided by one reading from left to right.

## Main definitions

* `Mode` — where a reading stands, and `Mode.next`, the step over one character.
* `Mode.after` — where it stands after a text.
* `closingQuote?` — the end of a literal whose opening quote has been read.
* `literalEnd?` — the same for a position in a text.
-/

namespace Ebnf.Source

/-- Where a reading from left to right stands. -/
inductive Mode where
  /-- Outside literals. -/
  | plain
  /-- Within a literal. -/
  | literal
  /-- Within a literal, just after a backslash. -/
  | escape
  deriving DecidableEq, Repr

namespace Mode

/-- The mode after one more character. A backslash means something only within a literal. -/
def next : Mode → Char → Mode
  | .plain, c => if c = '"' then .literal else .plain
  | .literal, c => if c = '"' then .plain else if c = '\\' then .escape else .literal
  | .escape, _ => .literal

/-- The mode after a text, read character by character from the given mode on. -/
def after (mode : Mode) (text : List Char) : Mode := text.foldl next mode

@[simp] theorem next_escape (c : Char) : next .escape c = .literal := rfl

@[simp] theorem next_plain_quote : next .plain '"' = .literal := rfl

theorem next_plain {c : Char} (h : c ≠ '"') : next .plain c = .plain := if_neg h

@[simp] theorem after_nil (mode : Mode) : mode.after [] = mode := rfl

@[simp] theorem after_cons (mode : Mode) (c : Char) (text : List Char) :
    mode.after (c :: text) = (mode.next c).after text := rfl

theorem after_append (mode : Mode) (a b : List Char) :
    mode.after (a ++ b) = (mode.after a).after b := List.foldl_append

end Mode

/-- How many characters of a literal's inside stand before the quote that closes it. -/
def closingQuote? : List Char → Option Nat
  | [] => none
  | '\\' :: _ :: rest => (closingQuote? rest).map (· + 2)
  | c :: rest => if c = '"' then some 0 else (closingQuote? rest).map (· + 1)

/-- The position of the quote that closes the literal opened at `start`. -/
def literalEnd? (text : List Char) (start : Nat) : Option Nat :=
  (closingQuote? (text.drop (start + 1))).map (start + 1 + ·)

end Ebnf.Source
