import Ebnf.Source.Literal
import Ebnf.Text.Blank

/-!
# Layout

Blanks outside literals carry no meaning, even within a name, and are dropped before a statement
is read.

## Main definitions

* `dropBlanks` — a text without the blanks that stand outside its literals.
-/

namespace Ebnf.Source

open Text (isBlank)

/-- Drops blanks outside literals, starting in the given mode. -/
def dropBlanksFrom : Mode → List Char → List Char
  | _, [] => []
  | mode, c :: rest =>
    if mode = .plain ∧ isBlank c = true then dropBlanksFrom mode rest
    else c :: dropBlanksFrom (mode.next c) rest

/-- The text without the blanks outside its literals. -/
def dropBlanks (text : List Char) : List Char := dropBlanksFrom .plain text

@[simp] theorem dropBlanksFrom_nil (mode : Mode) : dropBlanksFrom mode [] = [] := by
  cases mode <;> rfl

theorem dropBlanksFrom_cons (mode : Mode) (c : Char) (rest : List Char) :
    dropBlanksFrom mode (c :: rest) =
      if mode = .plain ∧ isBlank c = true then dropBlanksFrom mode rest
      else c :: dropBlanksFrom (mode.next c) rest := by
  cases mode <;> rfl

end Ebnf.Source
