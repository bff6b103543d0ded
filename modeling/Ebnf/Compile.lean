import Ebnf.Definition.Lifting
import Ebnf.Source.Statement
import Ebnf.Text.Newline
import Ebnf.Text.Utf8

/-!
# From texts to grammars

A grammar text is cut into statements, and each statement is added to a builder that knows all the
names declared. The grammar is finished when its references have been checked.

## Main definitions

* `Grammar.ofStatements`, `Grammar.compile` — the grammar of statements and of a text.
* `decodeGrammar` — the text in the bytes of a grammar file.
-/

namespace Ebnf

variable [Pattern.Engine]

/-- The builder after all statements. It knows beforehand which names they declare, so that no
bracket takes one of these. -/
def Build.statements (statements : List (List Char)) : Except BuildFault Builder :=
  match (statements.forM fun raw => discard (Build.statement raw)).run
      (Builder.empty (declaredNames statements)) with
  | (.ok (), b) => .ok b
  | (.error fault, _) => .error fault

namespace Grammar

/-- The grammar that statements define, if all can be added and what they make can be finished. -/
def ofStatements (statements : List (List Char)) : Except BuildFault Grammar := do
  (← Build.statements statements).freeze

/-- The grammar that a text defines. The first thing that is wrong with the text is the fault. -/
def compile (text : List Char) : Except BuildFault Grammar :=
  match Source.readStatements text with
  | .error fault => .error (.grammar (.ofText fault))
  | .ok statements => ofStatements statements

end Grammar

/-- The text of a grammar file: UTF-8, perhaps after a byte order mark, with newlines unified. -/
def decodeGrammar (bytes : List UInt8) : Except Text.Utf8.Fault (List Char) :=
  Text.unifyNewlines <$> Text.Utf8.decodeMarked bytes

/-- The text of an input file: UTF-8 with newlines unified. -/
def decodeInput (bytes : List UInt8) : Except Text.Utf8.Fault (List Char) :=
  Text.unifyNewlines <$> Text.Utf8.decode bytes

end Ebnf
