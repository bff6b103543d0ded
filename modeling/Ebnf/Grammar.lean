import Ebnf.Grammar.NodeType
import Ebnf.Grammar.Rule

/-!
# Grammars

A grammar is a list of rules in the order of their declaration: each rule of a statement is
followed by the rules lifted out of it.

## Main definitions

* `Grammar` — the rules, and the types of nodes that trees of the grammar can have.
* `Grammar.find?` — the rule of a name.
* `Grammar.topLevel`, `Grammar.lifted` — the names of the two sorts of rules.
* `Grammar.start?` — the first rule of a statement.
* `Grammar.summary`, `Grammar.describe` — short and full descriptions.
-/

namespace Ebnf

variable [Pattern.Engine]

/-- A grammar whose construction is finished: nothing is added to it later. -/
structure Grammar where
  /-- The rules in the order of their declaration. -/
  rules : List Rule
  /-- The types of nodes. -/
  nodeTypes : List String
  deriving DecidableEq, Repr

namespace Grammar

/-- The rule with a name. Names differ in grammars that compile, so the first one found is the only
one. -/
def find? (g : Grammar) (name : String) : Option Rule := g.rules.find? (·.name = name)

/-- Whether there is a rule with a name. -/
def contains (g : Grammar) (name : String) : Bool := g.rules.any (·.name = name)

/-- The names of all rules in order. -/
def names (g : Grammar) : List String := g.rules.map (·.name)

/-- The names of the rules of statements in order. -/
def topLevel (g : Grammar) : List String :=
  (g.rules.filter (!·.isLifted)).map (·.name)

/-- The names of the lifted rules in order. -/
def lifted (g : Grammar) : List String := (g.rules.filter (·.isLifted)).map (·.name)

/-- The name of the first rule of a statement, which is shown as the start of the grammar. A match
may begin with any rule. -/
def start? (g : Grammar) : Option String := g.topLevel.head?

/-- A description in one line: how many rules there are of either sort. -/
def summary (g : Grammar) : String :=
  s!"<Grammar rules={g.topLevel.length} synthesized={g.lifted.length}>"

/-- The line that describes a rule. Lifted rules are indented and say what they are. -/
def describeRule (r : Rule) : String :=
  match r.origin? with
  | none => r.render
  | some origin => "    " ++ r.render ++ "  (* " ++ origin ++ " *)"

/-- A description with a line for each rule, which is itself a grammar text. -/
def describe (g : Grammar) : String := "\n".intercalate (g.rules.map describeRule)

end Grammar

end Ebnf
