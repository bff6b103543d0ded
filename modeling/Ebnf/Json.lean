import Ebnf.Match
import Ebnf.Text.Quoted

/-!
# Results as JSON

A result can be written in JSON, for other programs to read. Each member and each element stands
on a line of its own, two spaces deeper than what encloses it; only empty lists and objects stay on
one line. Strings keep all characters but quotes, backslashes and the controls below U+0020.

## Main definitions

* `JsonValue` — the values that occur in results.
* `JsonValue.render` — the written form.
* `Tree.toJson`, `MatchResult.toJson` — trees and results as values.
-/

namespace Ebnf

/-- A JSON value, as far as results have them: there are no numbers. The members of an object keep
their order. -/
inductive JsonValue where
  /-- The null value. -/
  | null
  /-- A truth value. -/
  | bool (b : Bool)
  /-- A string. -/
  | str (s : String)
  /-- A list. -/
  | arr (elements : List JsonValue)
  /-- An object with its members in order. -/
  | obj (members : List (String × JsonValue))
  deriving Repr

namespace JsonValue

/-- What is written for a character of a string. -/
def encodeChar (c : Char) : List Char :=
  match c with
  | '"' => ['\\', '"']
  | '\\' => ['\\', '\\']
  | '\n' => ['\\', 'n']
  | '\r' => ['\\', 'r']
  | '\t' => ['\\', 't']
  | '\x08' => ['\\', 'b']
  | '\x0c' => ['\\', 'f']
  | c => if c.toNat < 0x20 then '\\' :: 'u' :: Text.Quoted.hex 4 c.toNat else [c]

/-- The written form of a string, between quotes. It determines the string, since what is escaped is
escaped in one way. -/
def encodeString (s : String) : String :=
  String.ofList ('"' :: (s.toList.flatMap encodeChar ++ ['"']))

/-- The start of a line at a level. -/
def lineStart (level : Nat) : String := "\n" ++ String.join (List.replicate level "  ")

/-- Entries between brackets at a level, each on a line of its own. -/
def enclose (opener closer : String) (level : Nat) (entries : List String) : String :=
  if entries.isEmpty then opener ++ closer
  else
    opener ++ lineStart (level + 1) ++ ("," ++ lineStart (level + 1)).intercalate entries ++
      lineStart level ++ closer

mutual

/-- The written form of a value at a level. -/
def renderAt (level : Nat) : JsonValue → String
  | .null => "null"
  | .bool b => if b then "true" else "false"
  | .str s => encodeString s
  | .arr elements => enclose "[" "]" level (renderElements (level + 1) elements)
  | .obj members => enclose "\x7b" "\x7d" level (renderMembers (level + 1) members)

/-- The written forms of the elements of a list. -/
def renderElements (level : Nat) : List JsonValue → List String
  | [] => []
  | j :: rest => renderAt level j :: renderElements level rest

/-- The written forms of the members of an object. -/
def renderMembers (level : Nat) : List (String × JsonValue) → List String
  | [] => []
  | (key, j) :: rest => (encodeString key ++ ": " ++ renderAt level j) :: renderMembers level rest

end

/-- The written form of a value, without a newline at its end. -/
def render (j : JsonValue) : String := renderAt 0 j

end JsonValue

mutual

/-- A tree as a value: an object with the type, the value and the children of its root. -/
def Tree.toJson : Tree → JsonValue
  | .node type value children =>
    .obj [("type", .str type), ("value", .str value),
      ("children", .arr (Tree.listToJson children))]

/-- Trees as values. -/
def Tree.listToJson : List Tree → List JsonValue
  | [] => []
  | t :: rest => t.toJson :: Tree.listToJson rest

end

/-- A result as a value. Only a match has a tree. -/
def MatchResult.toJson (r : MatchResult) : JsonValue :=
  .obj [("success", .bool r.success), ("full", .bool r.full), ("remainder", .str r.remainder),
    ("tree", if r.success then r.tree.toJson else .null)]

end Ebnf
