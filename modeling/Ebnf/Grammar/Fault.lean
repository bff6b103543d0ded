import Ebnf.Pattern.Engine
import Ebnf.Source.Split
import Ebnf.Source.Statement
import Ebnf.Text.Quoted

/-!
# What can be wrong with a grammar

A fault of a grammar has a cause and, if it lies in a statement, that statement. Causes fall into
kinds, which have names of their own in reports. Beside the faults of grammars there are those of
using a builder in the wrong order.

## Main definitions

* `FaultKind`, `FaultKind.name` — the kinds of faults.
* `Cause`, `Cause.kind`, `Cause.text` — the causes, their kinds and their wording.
* `Fault`, `Fault.message` — a cause in a statement, and the report of it.
* `NodeTypeFault`, `EnumerationFault` — why names make no enumeration of node types.
* `BuildFault` — a fault of the grammar or of its construction.
-/

namespace Ebnf

open Text (Position quote)

/-- The kinds of faults of grammars, under which they are reported. -/
inductive FaultKind where
  /-- A literal is not closed. -/
  | unterminatedLiteral
  /-- A comment is not closed. -/
  | unterminatedComment
  /-- Brackets do not match. -/
  | unbalancedBracket
  /-- A statement defines nothing. -/
  | missingDefiningSymbol
  /-- A statement names nothing. -/
  | emptyIdentifier
  /-- An alternative is empty. -/
  | emptyAlternative
  /-- An atom is empty. -/
  | emptyAtom
  /-- An atom or a name is malformed. -/
  | malformedAtom
  /-- A pattern denotes no regular expression. -/
  | invalidPattern
  /-- A name is used for two rules. -/
  | duplicateIdentifier
  /-- There are no rules. -/
  | emptyGrammar
  /-- A rule that is referred to does not exist. -/
  | unresolvedReference
  deriving DecidableEq, Repr

/-- The name under which reports give a kind. -/
def FaultKind.name : FaultKind → String
  | .unterminatedLiteral => "UnterminatedLiteral"
  | .unterminatedComment => "UnterminatedComment"
  | .unbalancedBracket => "UnbalancedBracket"
  | .missingDefiningSymbol => "MissingDefiningSymbol"
  | .emptyIdentifier => "EmptyIdentifier"
  | .emptyAlternative => "EmptyAlternative"
  | .emptyAtom => "EmptyAtom"
  | .malformedAtom => "MalformedAtom"
  | .invalidPattern => "InvalidPattern"
  | .duplicateIdentifier => "DuplicateIdentifier"
  | .emptyGrammar => "EmptyGrammar"
  | .unresolvedReference => "UnresolvedReference"

/-- Which name has a character that no name may have. -/
inductive NameRole where
  /-- The name that a statement defines. -/
  | defined
  /-- A name that refers to a rule. -/
  | referred
  deriving DecidableEq, Repr

/-- The words for a role in the report of a reserved character. -/
def NameRole.words : NameRole → String
  | .defined => "rule identifier"
  | .referred => "rule reference"

/-- Why a name cannot be one of the node types. -/
inductive NodeTypeFault where
  /-- The name is reserved. -/
  | reserved (name : String)
  /-- Node types may not have these names. -/
  | invalid (names : List String)
  /-- The name for the slots of the enumeration is among them. -/
  | slots
  deriving DecidableEq, Repr

/-- The wording of a fault of node types. -/
def NodeTypeFault.text : NodeTypeFault → String
  | .reserved name =>
    "_sunder_ names, such as " ++ quote name ++ ", are reserved for future Enum use"
  | .invalid names => "invalid enum member name(s) " ++ ",".intercalate (names.map quote)
  | .slots => "'__slots__' in __slots__ conflicts with class variable"

/-- Why names break their enumeration. Some names stand for parts of it, and a name is not such a
part. -/
inductive EnumerationFault where
  /-- A name stands for the cell of the enumeration. -/
  | cell
  /-- A name stands for a step that makes members. -/
  | step
  /-- A name stands for the order of the members, and they have another one. -/
  | order (members : List String) (name : String)
  deriving DecidableEq, Repr

/-- The wording of a fault of an enumeration. -/
def EnumerationFault.text : EnumerationFault → String
  | .cell => "__classcell__ must be a nonlocal cell, not <class 'str'>"
  | .step => "'str' object is not callable"
  | .order members name =>
    "member order does not match _order_:\n  [" ++ ", ".intercalate (members.map quote) ++
      "]\n  [" ++ quote name ++ "]"

/-- The causes of faults, with all that the wording of a report needs. -/
inductive Cause where
  /-- The text ends in a literal that opens at the place. -/
  | openLiteral (place : Position)
  /-- The text ends in a comment that opens at the place. -/
  | openComment (place : Position)
  /-- A text cannot be split. -/
  | split (fault : Source.SplitFault) (text : String)
  /-- A statement has no equals sign. -/
  | missingDefiningSymbol
  /-- A statement has nothing before its equals sign. -/
  | emptyIdentifier
  /-- A name has a character that no name may have. -/
  | reservedCharacter (role : NameRole) (name : String) (c : Char)
  /-- A rule has an empty alternative. -/
  | emptyAlternative (rule : String)
  /-- An alternative of a rule has an empty atom. -/
  | emptyAtom (rule : String)
  /-- An atom begins like a terminal but is none. -/
  | malformedTerminal (token : String)
  /-- An atom begins like a pattern but is none. -/
  | malformedPattern (token : String)
  /-- An atom begins like a bracket but does not end with it. -/
  | malformedGroup (bracket : Bracket) (token : String)
  /-- A pattern denotes no regular expression. -/
  | invalidPattern (token : String) (fault : Pattern.Fault)
  /-- A name is defined twice. -/
  | duplicateIdentifier (name : String)
  /-- There are no rules. -/
  | emptyGrammar
  /-- Rules that are referred to do not exist. Each pair has the rule of the statement at fault
  and the missing name; `statements` has the texts of those statements. -/
  | unresolved (missing : List (String × String)) (statements : List (String × String))
  /-- A name cannot be a node type. -/
  | nodeType (fault : NodeTypeFault)
  deriving DecidableEq, Repr

namespace Cause

/-- The kind of a cause. Several causes may be of one kind. -/
def kind : Cause → FaultKind
  | .openLiteral _ | .split .openLiteral _ => .unterminatedLiteral
  | .openComment _ => .unterminatedComment
  | .split (.unexpectedCloser _) _ | .split (.missingCloser _) _ => .unbalancedBracket
  | .missingDefiningSymbol => .missingDefiningSymbol
  | .emptyIdentifier => .emptyIdentifier
  | .reservedCharacter _ _ _ | .malformedTerminal _ | .malformedPattern _ | .malformedGroup _ _
  | .nodeType _ => .malformedAtom
  | .emptyAlternative _ => .emptyAlternative
  | .emptyAtom _ => .emptyAtom
  | .invalidPattern _ _ => .invalidPattern
  | .duplicateIdentifier _ => .duplicateIdentifier
  | .emptyGrammar => .emptyGrammar
  | .unresolved _ _ => .unresolvedReference

/-- The lines that report one missing name: where it is referred to, and the text of that statement.
-/
def unresolvedLines (statements : List (String × String)) : String × String → List String
  | (home, name) =>
    s!"  '{name}' (referenced from '{home}')" ::
      (statements.lookup home).toList.map ("    in statement: " ++ ·)

/-- The wording of a cause. Names and tokens of the grammar text appear in it as they are written.
-/
def text : Cause → String
  | .openLiteral place => "Unterminated literal starting at " ++ place.render
  | .openComment place => "Unterminated comment starting at " ++ place.render
  | .split (.unexpectedCloser c) text => s!"Unexpected '{c}' in '{text}'"
  | .split .openLiteral text => s!"Unterminated literal in '{text}'"
  | .split (.missingCloser b) text => s!"Missing '{b.closer}' for '{b.opener}' in '{text}'"
  | .missingDefiningSymbol => "Statement is missing defining symbol '='"
  | .emptyIdentifier => "Statement has no rule identifier before '='"
  | .reservedCharacter role name c =>
    s!"Invalid {role.words} '{name}' (unexpected {quote (String.singleton c)}; missing ',' or '|'?)"
  | .emptyAlternative rule => s!"Empty alternative in rule '{rule}'"
  | .emptyAtom rule => s!"Empty atom in rule '{rule}'"
  | .malformedTerminal token => s!"Malformed terminal {token} (missing ','?)"
  | .malformedPattern token => s!"Malformed pattern {token}; expected !\"regex\""
  | .malformedGroup b token =>
    s!"Malformed group {token} (text after '{b.closer}'; missing ','?)"
  | .invalidPattern token fault => s!"Invalid pattern {token}: {fault.message}"
  | .duplicateIdentifier name => s!"Duplicate rule identifier '{name}'"
  | .emptyGrammar => "Grammar contains no rules"
  | .unresolved missing statements =>
    "Unresolved rule reference(s):\n" ++
      "\n".intercalate (missing.flatMap (unresolvedLines statements))
  | .nodeType fault => "Rule identifier cannot name a node type: " ++ fault.text

end Cause

/-- A fault of a grammar: a cause, and the text of the statement at fault. -/
structure Fault where
  /-- What is wrong. -/
  cause : Cause
  /-- The statement in which it is wrong, if it is in one. -/
  statement : Option String
  deriving DecidableEq, Repr

/-- The report of a fault: the wording of its cause and the statement, which missing names carry
already. -/
def Fault.message (f : Fault) : String :=
  match f.cause, f.statement with
  | .unresolved _ _, _ => f.cause.text
  | _, some statement => f.cause.text ++ "\n  in statement: " ++ statement
  | _, none => f.cause.text

/-- The fault of a text that cannot be cut into statements. -/
def Fault.ofText : Source.TextFault → Fault
  | .openComment place => ⟨.openComment place, none⟩
  | .openLiteral place tail => ⟨.openLiteral place, some (String.ofList tail)⟩

/-- A fault of a grammar or of its construction. -/
inductive BuildFault where
  /-- The grammar is at fault. -/
  | grammar (fault : Fault)
  /-- A rule is defined under a name that has not been reserved. -/
  | notReserved (name : String)
  /-- A name has been reserved but not defined. -/
  | notDefined (name : String)
  /-- The rule to which a lifted rule belongs does not exist. -/
  | noHome (name : String)
  /-- The names of the rules break their enumeration. -/
  | enumeration (fault : EnumerationFault)
  deriving DecidableEq, Repr

/-- The report of a fault, of a grammar or of its construction. -/
def BuildFault.message : BuildFault → String
  | .grammar fault => fault.message
  | .notReserved name => s!"rule '{name}' was not reserved"
  | .notDefined name => s!"rule '{name}' was reserved but never defined"
  | .noHome name => name
  | .enumeration fault => fault.text

/-- The name in reports of the sort of fault. -/
def BuildFault.kindName : BuildFault → String
  | .grammar fault => fault.cause.kind.name
  | .notReserved _ | .notDefined _ | .noHome _ => "KeyError"
  | .enumeration _ => "TypeError"

end Ebnf
