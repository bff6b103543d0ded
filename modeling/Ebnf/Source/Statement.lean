import Ebnf.Source.Comment
import Ebnf.Text.Blank

/-!
# Statements of a grammar text

A grammar text is a sequence of statements, each ended by a semicolon outside literals; the last
one may do without. Comments are dropped first and blank statements skipped. A text that ends
within a literal has no last statement, but those before it stand.

## Main definitions

* `cutPlain` — a text cut at every separator outside literals.
* `openQuote?` — the place of the quote that opens the literal in which a text ends.
* `TextFault` — what keeps a text from being cut into statements.
* `statements` — the statements of a text, and the fault that ends them.
* `readStatements` — the statements of a text without fault.
-/

namespace Ebnf.Source

open Text (Position isBlankText strip)

/-- The pieces between the separators outside literals, the first piece apart. -/
def cutPlainFrom (sep : Char) : Mode → List Char → List Char × List (List Char)
  | _, [] => ([], [])
  | mode, c :: rest =>
    if mode = .plain ∧ c = sep ∧ c ≠ '"' then
      let (piece, pieces) := cutPlainFrom sep mode rest
      ([], piece :: pieces)
    else
      let (piece, pieces) := cutPlainFrom sep (mode.next c) rest
      (c :: piece, pieces)

/-- The pieces between the separators outside literals. There is one more of them than separators,
and they may be empty. -/
def cutPlain (sep : Char) (text : List Char) : List (List Char) :=
  let (piece, pieces) := cutPlainFrom sep .plain text
  piece :: pieces

/-- Reads on at a place in the given mode; `quote` is the place of the last opening quote. -/
def openQuoteFrom? (quote : Position) : Mode → Position → List Char → Option Position
  | mode, _, [] => if mode = .plain then none else some quote
  | mode, place, c :: rest =>
    openQuoteFrom? (if mode = .plain ∧ c = '"' then place else quote) (mode.next c)
      (place.advance c) rest

/-- The place of the quote that opens the literal in which the text ends, if it ends in one. -/
def openQuote? (text : List Char) : Option Position := openQuoteFrom? .first .plain .first text

/-- What keeps a text from being cut into statements. -/
inductive TextFault where
  /-- A comment without end opens at the place. -/
  | openComment (place : Position)
  /-- A literal without end opens at the place, counted after comments are dropped; `tail` is the
  unfinished statement around it. -/
  | openLiteral (place : Position) (tail : List Char)
  deriving DecidableEq, Repr

/-- The statements of a text and the fault that ends them, if one does. -/
structure Statements where
  /-- The statements that are complete, blank ones left out. -/
  complete : List (List Char)
  /-- What is wrong after them. -/
  fault : Option TextFault
  deriving DecidableEq, Repr

/-- The statements of a text that has no comments. -/
def statementsOfStripped (text : List Char) : Statements :=
  let pieces := cutPlain ';' text
  match openQuote? text with
  | none => ⟨pieces.filter (!isBlankText ·), none⟩
  | some place =>
    ⟨pieces.dropLast.filter (!isBlankText ·),
      some (.openLiteral place (strip (pieces.getLast?.getD [])))⟩

/-- The statements of a text. A comment without end leaves none; a literal without end leaves those
before it. -/
def statements (text : List Char) : Statements :=
  match stripComments text with
  | .error place => ⟨[], some (.openComment place)⟩
  | .ok stripped => statementsOfStripped stripped

/-- The statements of a text in which nothing is left open, or what is. -/
def readStatements (text : List Char) : Except TextFault (List (List Char)) :=
  match statements text with
  | ⟨complete, none⟩ => .ok complete
  | ⟨_, some fault⟩ => .error fault

end Ebnf.Source
