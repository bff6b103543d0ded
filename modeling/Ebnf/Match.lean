import Ebnf.Match.Engine

/-!
# Matching a text against a rule

A match that fails is a result like one that succeeds; only a limit, a rule that does not exist, or
a limit that makes no sense is a fault.

## Main definitions

* `MatchFault`, `MatchFault.message` — the faults, and the reports of them.
* `MatchResult` — the result of a match, and `MatchResult.full`, whether all of the text was taken.
* `Grammar.matchWithin`, `Grammar.matchRule` — the match of a text against a rule.
-/

namespace Ebnf

/-- The number of levels that a match may have where no limit is given. -/
def defaultMaxDepth : Int := 250

/-- The number of applications of rules that may be open at a time where no other is given. It
stands for the room on the stack of the machine, which is not part of what a grammar means: the
value is a choice made here, and what is proved of matches holds for any number. -/
def maxNesting : Nat := 2000

/-- Why there is no result of a match. -/
inductive MatchFault where
  /-- The limit admits no level at all. -/
  | badLimit (limit : Int)
  /-- The rule to match does not exist. -/
  | unknownRule (name : String)
  /-- The application of the rule was beyond the limit. -/
  | tooDeep (rule : String) (limit : Int)
  /-- A rule that another one refers to does not exist. -/
  | missingRule (name : String)
  deriving DecidableEq, Repr

/-- The report of a fault. For a missing rule it is the bare name. -/
def MatchFault.message : MatchFault → String
  | .badLimit limit => s!"max_depth must be positive, got {limit}"
  | .unknownRule name => s!"Unknown rule '{name}'"
  | .tooDeep rule limit =>
    s!"Recursion depth limit ({limit}) exceeded while matching '{rule}'; " ++
      "is the grammar left-recursive?"
  | .missingRule name => name

/-- The result of a match, whether it succeeds or fails. -/
structure MatchResult where
  /-- Whether the rule matches a start of the text. -/
  success : Bool
  /-- What the rule did not take of the text. -/
  remainder : String
  /-- The tree of the match; a failed one has a root alone, without value. -/
  tree : Tree
  deriving Repr

/-- Whether the rule matches and takes all of the text. -/
def MatchResult.full (r : MatchResult) : Bool := r.success && r.remainder.isEmpty

variable [Pattern.Engine]

namespace Grammar

/-- The result of an application of a rule to a text. -/
def resultOf (rule : String) (text : List Char) : Option Match.Span → MatchResult
  | some span => ⟨true, String.ofList (span.after text), span.toTree rule text⟩
  | none => ⟨false, String.ofList text, .node rule "" []⟩

/-- Matches a text against a rule with at most `maxDepth` levels and at most `nesting` applications
open at a time. When more would be open, the report names the rule to match. -/
def matchWithin (g : Grammar) (nesting : Nat) (rule text : String) (maxDepth : Int) :
    Except MatchFault MatchResult :=
  if maxDepth < 1 then .error (.badLimit maxDepth)
  else if !g.contains rule then .error (.unknownRule rule)
  else
    match Match.applyRule g nesting maxDepth.toNat rule text.toList with
    | .error (.tooDeep name) => .error (.tooDeep name maxDepth)
    -- where there is no room left, the rule that gives out is not known any more
    | .error .tooNested => .error (.tooDeep rule maxDepth)
    | .error (.missingRule name) => .error (.missingRule name)
    | .ok span => .ok (resultOf rule text.toList span)

/-- Matches a text against a rule with at most `maxDepth` levels. -/
def matchRule (g : Grammar) (rule text : String) (maxDepth : Int) :
    Except MatchFault MatchResult :=
  g.matchWithin maxNesting rule text maxDepth

/-- The type of the nodes that a rule makes: lifted rules count as the rule they belong to. -/
def nodeTypeOf? (g : Grammar) (name : String) : Option String := (g.find? name).map (·.home)

end Grammar

end Ebnf
