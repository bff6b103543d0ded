import Ebnf.Grammar.Fault

/-!
# Node types

The rules of the statements give the nodes of parse trees their types, and a grammar enumerates
them. Some names are set apart: those between single or double underscores and those that begin
with the mark of private names are never members, and of the names between single underscores only
a few are accepted at all. Of the names set apart some stand for parts of the enumeration, which
breaks when a rule has such a name.

## Main definitions

* `NodeType.isPrivate`, `NodeType.isSunder`, `NodeType.isDunder` — the names set apart.
* `NodeType.members` — the members that names make, or which names are not accepted.
* `NodeType.enumerationFault?` — why names break their enumeration.
* `nodeTypes` — the members of the enumeration of names, or why there is none.
-/

namespace Ebnf

namespace NodeType

/-- The mark with which private names begin, made of the name of the enumeration. -/
def privateMark : List Char := "_NodeType__".toList

/-- Whether a name is private: it begins with the mark, goes on, and does not end with two
underscores. -/
def isPrivate (name : List Char) : Bool :=
  privateMark.isPrefixOf name && privateMark.length < name.length &&
    !(['_', '_'].isPrefixOf name.reverse)

/-- Whether a text begins with exactly `count` underscores. -/
def beginsWithUnderscores (count : Nat) (text : List Char) : Bool :=
  (text.takeWhile (· = '_')).length = count

/-- Whether exactly `count` underscores stand at either end of a name, with something between. -/
def isWrapped (count : Nat) (name : List Char) : Bool :=
  2 * count < name.length && beginsWithUnderscores count name &&
    beginsWithUnderscores count name.reverse

/-- Whether a name stands between single underscores. Such names are reserved, and only a few are
accepted. -/
def isSunder (name : List Char) : Bool := isWrapped 1 name

/-- Whether a name stands between double underscores. Such names are accepted but make no members.
-/
def isDunder (name : List Char) : Bool := isWrapped 2 name

/-- The names between single underscores that are accepted. -/
def acceptedSunders : List String :=
  ["_order_", "_missing_", "_numeric_repr_", "_iter_member_", "_iter_member_by_value_",
    "_iter_member_by_def_", "_generate_next_value_", "_ignore_"]

/-- The names that no member may have: the empty one, and that of the order of base types. -/
def invalidNames : List String := ["", "mro"]

/-- Whether a name becomes a member; the error is for a name that is not accepted. -/
def isMember (name : String) : Except NodeTypeFault Bool :=
  if isPrivate name.toList then .ok false
  else if isSunder name.toList then
    if name ∈ acceptedSunders then .ok false else .error (.reserved name)
  else .ok (!isDunder name.toList)

/-- The members that the names make, in order. Names that are not accepted count before names that
no member may have, and those before the name for slots. -/
def members (names : List String) : Except NodeTypeFault (List String) := do
  let members ← names.filterM isMember
  match invalidNames.filter (· ∈ members) with
  | [] => if "__slots__" ∈ names then throw .slots else return members
  | invalid => throw (.invalid invalid)

/-- The names for the steps that make members. -/
def stepNames : List String :=
  ["__new__", "__init__", "__setattr__", "__getattr__", "__getattribute__"]

/-- The names for the order of the members. -/
def orderNames : List String := ["_order_", "__order__"]

/-- Why names break the enumeration with the given members. The steps are taken only if there are
members, and of several names for their order the last counts. -/
def enumerationFault? (names members : List String) : Option EnumerationFault :=
  if "__classcell__" ∈ names then some .cell
  else if members ≠ [] ∧ ∃ name ∈ names, name ∈ stepNames then some .step
  else ((names.filter (· ∈ orderNames)).getLast?).map (.order members)

end NodeType

/-- The node types that the names make, in order. The fault that breaks the enumeration is none of
the grammar, and so is not reported as one. -/
def nodeTypes (names : List String) : Except BuildFault (List String) :=
  match NodeType.members names with
  | .error fault => .error (.grammar ⟨.nodeType fault, none⟩)
  | .ok members =>
    match NodeType.enumerationFault? names members with
    | some fault => .error (.enumeration fault)
    | none => .ok members

end Ebnf
