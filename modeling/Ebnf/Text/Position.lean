/-!
# Line and column

A place in a text is named by its line and column, both counted from 1. The column counts
characters since the last newline.

## Main definitions

* `Position` — line and column; `Position.first` is where a text begins.
* `Position.advance` — the place after one more character, and `Position.after` after a whole text.
* `Position.render` — the form `line:column` of messages.
-/

namespace Ebnf.Text

/-- A place in a text, as reports give it. Lines and columns are counted from 1. -/
structure Position where
  /-- Number of the line, the first line being 1. -/
  line : Nat
  /-- Number of the character in its line, the first being 1. -/
  column : Nat
  deriving DecidableEq, Repr

namespace Position

/-- Where a text begins. -/
def first : Position := ⟨1, 1⟩

/-- The place after a character: a newline ends its line. -/
def advance (p : Position) (c : Char) : Position :=
  if c = '\n' then ⟨p.line + 1, 1⟩ else ⟨p.line, p.column + 1⟩

/-- The place that follows a text which begins at `p`. -/
def after (p : Position) (text : List Char) : Position := text.foldl advance p

/-- The form in which messages name a place. -/
def render (p : Position) : String := s!"{p.line}:{p.column}"

@[simp] theorem after_nil (p : Position) : p.after [] = p := rfl

@[simp] theorem after_cons (p : Position) (c : Char) (text : List Char) :
    p.after (c :: text) = (p.advance c).after text := rfl

theorem after_append (p : Position) (a b : List Char) :
    p.after (a ++ b) = (p.after a).after b := List.foldl_append

end Position

end Ebnf.Text
