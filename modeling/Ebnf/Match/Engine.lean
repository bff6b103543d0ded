import Ebnf.Grammar
import Ebnf.Match.Tree

/-!
# Applying rules to a text

A rule is applied at the start of a text. Its alternatives are tried in order and the first that
matches is taken; an alternative matches if its atoms do, one after the other, each as far as it
gets by itself. There is no way back into an atom that has matched.

A reference to a rule makes a node and goes one level deeper; the rules lifted out of brackets
belong to the rule around them, so they make no nodes and stay at its level. The depth left bounds
the levels. Lifted rules can be applied within each other at one level, and a bound on all open
applications keeps those finite for any rules whatever.

## Main definitions

* `Span` — what an application took, and the nodes that it made.
* `Stop` — why a match was given up.
* `repeated` — applications one after the other, as often as they take something.
* `evalAtom`, `evalAtoms`, `evalAlternatives` — the match of the parts of a rule.
* `applyRule` — the application of a rule.
-/

namespace Ebnf.Match

/-- What a part of a rule took from the start of a text. -/
structure Span where
  /-- How many characters. -/
  length : Nat
  /-- The nodes for the rules referred to. -/
  children : List Tree
  deriving Repr

namespace Span

/-- Nothing is taken and no node is made, which still counts as a match. -/
def nothing : Span := ⟨0, []⟩

/-- One span and then another: lengths add up, and nodes follow each other. -/
def append (a b : Span) : Span := ⟨a.length + b.length, a.children ++ b.children⟩

instance : Append Span := ⟨append⟩

/-- What the span covers of the text. -/
def covered (s : Span) (text : List Char) : List Char := text.take s.length

/-- What follows the span in the text. -/
def after (s : Span) (text : List Char) : List Char := text.drop s.length

/-- The node for a span that a rule took. -/
def toTree (s : Span) (rule : String) (text : List Char) : Tree :=
  .node rule (String.ofList (s.covered text)) s.children

theorem covered_append_after (s : Span) (text : List Char) :
    s.covered text ++ s.after text = text := List.take_append_drop _ _

end Span

/-- Why a match is given up. This is no failed match: no other alternative is tried. -/
inductive Stop where
  /-- The application of the rule would be too deep. -/
  | tooDeep (rule : String)
  /-- Too many applications are open. -/
  | tooNested
  /-- There is no rule with the name. -/
  | missingRule (name : String)
  deriving DecidableEq, Repr

/-- The outcome of matching a part of a rule: a span if it matches. -/
abbrev Outcome := Except Stop (Option Span)

/-- How a rule is applied at a depth to a text. -/
abbrev Apply := (depth : Nat) → (rule : String) → (text : List Char) → Outcome

/-- Takes as many spans one after the other as can be had. A span that leaves the text as long as
it was is the last one and does not count. -/
def repeated (once : List Char → Outcome) (text : List Char) : Except Stop Span :=
  match once text with
  | .error stop => .error stop
  | .ok none => .ok .nothing
  | .ok (some span) =>
    if (span.after text).length < text.length then
      match repeated once (span.after text) with
      | .error stop => .error stop
      | .ok more => .ok (span ++ more)
    else .ok .nothing
termination_by text.length

variable [Pattern.Engine]

/-- Matches an atom in a rule at a level under which `depth` further levels are left. Only a
reference makes a node; the rule of a bracket hands on the nodes made in it. -/
def evalAtom (apply : Apply) (depth : Nat) (text : List Char) : Atom → Outcome
  | .terminal expected =>
    .ok (if expected.toList.isPrefixOf text then some ⟨expected.length, []⟩ else none)
  | .pattern p => .ok ((p.matchLength? text).map (⟨·, []⟩))
  | .reference name =>
    match apply depth name text with
    | .error stop => .error stop
    | .ok none => .ok none
    | .ok (some span) => .ok (some ⟨span.length, [span.toTree name text]⟩)
  -- the rule of a bracket is applied at the level of the rule around it
  | .lifted .group rule => apply (depth + 1) rule text
  | .lifted .optional rule =>
    match apply (depth + 1) rule text with
    | .error stop => .error stop
    | .ok none => .ok (some .nothing)
    | .ok (some span) => .ok (some span)
  | .lifted .repetition rule =>
    match repeated (apply (depth + 1) rule) text with
    | .error stop => .error stop
    | .ok span => .ok (some span)

/-- Matches atoms one after the other, each from where the one before it stopped. All of them have
to match. -/
def evalAtoms (apply : Apply) (depth : Nat) : Alternative → List Char → Outcome
  | [], _ => .ok (some .nothing)
  | atom :: rest, text =>
    match evalAtom apply depth text atom with
    | .error stop => .error stop
    | .ok none => .ok none
    | .ok (some span) =>
      match evalAtoms apply depth rest (span.after text) with
      | .error stop => .error stop
      | .ok none => .ok none
      | .ok (some more) => .ok (some (span ++ more))

/-- Matches the first alternative that matches. Once one has matched, those after it are never
tried. -/
def evalAlternatives (apply : Apply) (depth : Nat) : List Alternative → List Char → Outcome
  | [], _ => .ok none
  | alt :: rest, text =>
    match evalAtoms apply depth alt text with
    | .error stop => .error stop
    | .ok none => evalAlternatives apply depth rest text
    | .ok (some span) => .ok (some span)

/-- Applies a rule to a text when `nesting` more applications may be open and `depth` more levels
are left. -/
def applyRule (g : Grammar) : (nesting : Nat) → Apply
  | _, 0, rule, _ => .error (.tooDeep rule)
  | 0, _ + 1, _, _ => .error .tooNested
  | nesting + 1, depth + 1, rule, text =>
    match g.find? rule with
    | none => .error (.missingRule rule)
    | some r => evalAlternatives (applyRule g nesting) depth r.alts text

end Ebnf.Match
