import Ebnf.Grammar.Fault
import Ebnf.Pattern
import Ebnf.Source.Escape

/-!
# Definitions as written

The right-hand side of a statement is a list of alternatives, each a list of primaries. A primary
is a terminal, a pattern, a name, or definitions within brackets, to any depth. A text that is not
well formed still has definitions: a primary that cannot be read takes the place of what is wrong,
and what stands before it is kept.

## Main definitions

* `Unreadable` — why a primary cannot be read.
* `Primary` — a primary, and `Definitions`, lists of lists of them.
* `Primary.chars`, `Definitions.chars` — the text that was read.
-/

namespace Ebnf

open Source (escapeQuotes)

variable [Pattern.Engine]

/-- Why a primary cannot be read. It becomes a fault only when the primary is lifted, which is why
the rules before it are there by then. -/
inductive Unreadable where
  /-- There is nothing between two bars. -/
  | emptyAlternative
  /-- There is nothing between two commas. -/
  | emptyAtom
  /-- The brackets or literals of the text do not match. -/
  | split (fault : Source.SplitFault) (text : List Char)
  /-- A terminal does not end where the text does. -/
  | malformedTerminal (token : List Char)
  /-- A pattern does not have its form. -/
  | malformedPattern (token : List Char)
  /-- A bracket does not end where the text does. -/
  | malformedGroup (bracket : Bracket) (token : List Char)
  /-- A pattern denotes no regular expression. -/
  | invalidPattern (token : List Char) (fault : Pattern.Fault)
  /-- A name has a character that no name may have. -/
  | reservedCharacter (name : List Char) (c : Char)
  deriving DecidableEq, Repr

/-- The cause of a fault in a rule. -/
def Unreadable.cause (rule : String) : Unreadable → Cause
  | .emptyAlternative => .emptyAlternative rule
  | .emptyAtom => .emptyAtom rule
  | .split fault text => .split fault (String.ofList text)
  | .malformedTerminal token => .malformedTerminal (String.ofList token)
  | .malformedPattern token => .malformedPattern (String.ofList token)
  | .malformedGroup bracket token => .malformedGroup bracket (String.ofList token)
  | .invalidPattern token fault => .invalidPattern (String.ofList token) fault
  | .reservedCharacter name c => .reservedCharacter .referred (String.ofList name) c

/-- What an alternative is made of, as it is written. -/
inductive Primary where
  /-- A terminal, given by the inside of its literal. -/
  | terminal (body : List Char)
  /-- A pattern. -/
  | pattern (p : Pattern)
  /-- The name of a rule. -/
  | name (name : List Char)
  /-- Definitions in brackets. -/
  | bracketed (bracket : Bracket) (inner : List (List Primary))
  /-- Something that cannot be read. -/
  | unreadable (why : Unreadable)

/-- Alternatives as they are written, in order of preference. -/
abbrev Definitions := List (List Primary)

mutual

/-- The text of a primary. It serves as the source of rules that are lifted, so it is given for what
can be read. -/
def Primary.chars : Primary → List Char
  | .terminal body => '"' :: (body ++ ['"'])
  | .pattern p => '!' :: '"' :: (escapeQuotes p.source.toList ++ ['"'])
  | .name name => name
  | .bracketed bracket inner => bracket.opener :: (Definitions.chars inner ++ [bracket.closer])
  | .unreadable _ => []

/-- The text of an alternative: its primaries between commas. -/
def Primary.listChars : List Primary → List Char
  | [] => []
  | [p] => p.chars
  | p :: rest => p.chars ++ ',' :: Primary.listChars rest

/-- The text of definitions: their alternatives between bars. -/
def Definitions.chars : List (List Primary) → List Char
  | [] => []
  | [alt] => Primary.listChars alt
  | alt :: rest => Primary.listChars alt ++ '|' :: Definitions.chars rest

end

end Ebnf
