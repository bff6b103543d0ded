import Ebnf.Pattern
import Ebnf.Source.Bracket
import Ebnf.Source.Escape

/-!
# Rules

The rules of a grammar are flat: a bracket in a statement becomes a rule of its own, lifted out of
the rule it stands in, and only a reference to it stays behind.

## Main definitions

* `Atom` — what an alternative is made of.
* `Alternative` — atoms, matched one after the other.
* `Rule` — alternatives under a name, the first preferred.
* `Rule.references` — the names of the rules that a rule refers to.
* `Atom.render`, `Alternative.render`, `Rule.render` — the written form.
-/

namespace Ebnf

open Source (escape escapeQuotes)

variable [Pattern.Engine]

/-- What an alternative is made of once brackets are lifted: nothing in it contains further
alternatives. -/
inductive Atom where
  /-- The given text. -/
  | terminal (text : String)
  /-- What the pattern takes. -/
  | pattern (p : Pattern)
  /-- A reference to a rule. -/
  | reference (name : String)
  /-- A bracket whose definitions were lifted into the named rule. -/
  | lifted (bracket : Bracket) (rule : String)
  deriving DecidableEq, Repr

/-- Atoms that are matched one after the other. -/
abbrev Alternative := List Atom

/-- The written form of an atom, as it may stand in a grammar text. A bracket is written around the
name of its rule. -/
def Atom.render : Atom → String
  | .terminal text => String.ofList ('"' :: (escape text.toList ++ ['"']))
  | .pattern p => String.ofList ('!' :: '"' :: (escapeQuotes p.source.toList ++ ['"']))
  | .reference name => name
  | .lifted bracket rule =>
    String.singleton bracket.opener ++ rule ++ String.singleton bracket.closer

/-- The name of the rule to which an atom refers. -/
def Atom.reference? : Atom → Option String
  | .reference name | .lifted _ name => some name
  | .terminal _ | .pattern _ => none

/-- The written form of an alternative. -/
def Alternative.render (alt : Alternative) : String := ", ".intercalate (alt.map Atom.render)

/-- A rule of a grammar, from a statement or from a bracket. -/
structure Rule where
  /-- Its name. -/
  name : String
  /-- Its alternatives, in order of preference. -/
  alts : List Alternative
  /-- The text it was read from, for messages. -/
  source : String
  /-- For a lifted rule the rule of the statement from which it was lifted. -/
  owner : Option String
  /-- For a lifted rule the word for the bracket that it stands for. -/
  kind : Option String
  deriving DecidableEq, Repr

namespace Rule

/-- Whether the rule was lifted from a bracket. -/
def isLifted (r : Rule) : Bool := r.owner.isSome

/-- The names of the rules referred to, in order and with repetitions. -/
def references (r : Rule) : List String := r.alts.flatten.filterMap Atom.reference?

/-- The rule of the statement to which the rule belongs: its owner if that has a name, or else
the rule itself. -/
def home (r : Rule) : String :=
  match r.owner with
  | some owner => if owner.isEmpty then r.name else owner
  | none => r.name

/-- The written form of a rule: a statement with its semicolon. -/
def render (r : Rule) : String :=
  r.name ++ " = " ++ " | ".intercalate (r.alts.map Alternative.render) ++ ";"

/-- What a lifted rule is, and to which rule it belongs. -/
def origin? (r : Rule) : Option String :=
  r.owner.map fun owner => (r.kind.getD "None") ++ " of " ++ owner

end Rule

end Ebnf
