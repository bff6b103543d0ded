import Ebnf.Definition.Reader
import Ebnf.Match

/-!
# Matching definitions as they are written

The meaning of a grammar without lifted rules: a bracket is matched where it stands, by matching
the definitions in it.  Nothing is counted here but the levels of references to statements; a
reading hands on the rest of the text and the nodes that have been made.

## Main definitions

* `Nested.Reading` — what a part leaves of a text, and its nodes.
* `Nested.star` — as many readings as can be had, one after the other.
* `Nested.primary`, `Nested.sequence`, `Nested.definitions` — the readings of what is written.
* `Nested.applyRule` — the reading of the statement with a name.
* `Nested.matchRule` — the result of a match.
-/

namespace Ebnf.Nested

open Source (unescape)

variable [Pattern.Engine]

/-- Why there is no reading: the levels do not suffice, or a reference leads nowhere. -/
inductive Stop where
  /-- The reference would be too deep. -/
  | tooDeep (rule : String)
  /-- No statement has the name. -/
  | undeclared (name : String)
  deriving DecidableEq, Repr

/-- The rest of the text and the nodes made; `none` for a failure. -/
abbrev Reading := Option (List Char × List Tree)

/-- The node of a statement that left `rest` of the text. -/
def node (rule : String) (text : List Char) : List Char × List Tree → Tree
  | (rest, nodes) => .node rule (String.ofList (text.take (text.length - rest.length))) nodes

/-- Reads as often as something is consumed.  The reading that fails or consumes nothing is the last
and leaves no nodes. -/
def star (once : List Char → Except Stop Reading) (text : List Char) :
    Except Stop (List Char × List Tree) :=
  match once text with
  | .error stop => .error stop
  | .ok none => .ok (text, [])
  | .ok (some (rest, nodes)) =>
    if rest.length < text.length then
      match star once rest with
      | .error stop => .error stop
      | .ok (rest', more) => .ok (rest', nodes ++ more)
    else .ok (text, [])
termination_by text.length

mutual

/-- The reading of a primary, when references are read by `refer`. -/
def primary (refer : String → List Char → Except Stop Reading) :
    Primary → List Char → Except Stop Reading
  | .terminal body, text =>
    .ok (if (unescape body).isPrefixOf text then some (text.drop (unescape body).length, [])
      else none)
  | .pattern p, text => .ok ((p.matchLength? text).map fun n => (text.drop n, []))
  | .name name, text =>
    match refer (String.ofList name) text with
    | .error stop => .error stop
    | .ok none => .ok none
    | .ok (some r) => .ok (some (r.1, [node (String.ofList name) text r]))
  | .bracketed .group inner, text => definitions refer inner text
  | .bracketed .optional inner, text =>
    match definitions refer inner text with
    | .error stop => .error stop
    | .ok none => .ok (some (text, []))
    | .ok (some r) => .ok (some r)
  | .bracketed .repetition inner, text =>
    match star (definitions refer inner) text with
    | .error stop => .error stop
    | .ok r => .ok (some r)
  | .unreadable _, _ => .ok none

/-- The reading of primaries one after the other, all of which have to succeed. -/
def sequence (refer : String → List Char → Except Stop Reading) :
    List Primary → List Char → Except Stop Reading
  | [], text => .ok (some (text, []))
  | p :: others, text =>
    match primary refer p text with
    | .error stop => .error stop
    | .ok none => .ok none
    | .ok (some (rest, nodes)) =>
      match sequence refer others rest with
      | .error stop => .error stop
      | .ok none => .ok none
      | .ok (some (rest', more)) => .ok (some (rest', nodes ++ more))

/-- The reading of the first alternative that has one. -/
def definitions (refer : String → List Char → Except Stop Reading) :
    List (List Primary) → List Char → Except Stop Reading
  | [], _ => .ok none
  | alt :: others, text =>
    match sequence refer alt text with
    | .error stop => .error stop
    | .ok none => definitions refer others text
    | .ok (some r) => .ok (some r)

end

/-- The reading of the statement with a name when `depth` levels are left. -/
def applyRule (statements : List Statement) :
    (depth : Nat) → String → List Char → Except Stop Reading
  | 0, rule, _ => .error (.tooDeep rule)
  | depth + 1, rule, text =>
    match statements.find? (·.name = rule) with
    | none => .error (.undeclared rule)
    | some s => definitions (applyRule statements depth) s.definitions text

/-- The result of matching a text against the statement with a name, with at most `maxDepth`
levels. -/
def matchRule (statements : List Statement) (rule text : String) (maxDepth : Int) :
    Except MatchFault MatchResult :=
  match applyRule statements maxDepth.toNat rule text.toList with
  | .error (.tooDeep name) => .error (.tooDeep name maxDepth)
  | .error (.undeclared name) => .error (.missingRule name)
  | .ok none => .ok ⟨false, text, .node rule "" []⟩
  | .ok (some r) => .ok ⟨true, String.ofList r.1, node rule text.toList r⟩

end Ebnf.Nested
