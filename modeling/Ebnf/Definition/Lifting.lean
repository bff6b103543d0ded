import Ebnf.Definition.Reader
import Ebnf.Grammar.Builder

/-!
# Lifting brackets

Adding a statement to a builder makes a rule of every bracket in it. The rule for a bracket is
reserved when the bracket begins and defined when it ends, so the rules of a statement stand in the
order in which their brackets begin, right after the rule of the statement. At a primary that
cannot be read the step fails, and the builder keeps what has been reserved and defined until then.

## Main definitions

* `Primary.lift`, `Definitions.lift` — the atoms and alternatives that are left of written ones when
  their brackets have become rules.
* `Build.statement` — adds a statement.
-/

namespace Ebnf

open Source (unescape)

variable [Pattern.Engine]

mutual

/-- The atom for a primary in the rule `parent` of the statement that defines `owner`. -/
def Primary.lift (owner statement parent : String) : Primary → Build Atom
  | .terminal body => return .terminal (String.ofList (unescape body))
  | .pattern p => return .pattern p
  | .name name => return .reference (String.ofList name)
  | .unreadable why => throw (.grammar ⟨why.cause parent, some statement⟩)
  | .bracketed bracket inner => do
    let name ← Build.freshName parent
    Build.reserve name (some statement)
    let alts ← Definitions.lift owner statement name inner
    Build.define
      { name, alts, source := name ++ "=" ++ String.ofList (Definitions.chars inner),
        owner := some owner, kind := some bracket.word }
    return .lifted bracket name

/-- The atoms for the primaries of an alternative. -/
def Primary.liftAll (owner statement parent : String) : List Primary → Build Alternative
  | [] => return []
  | p :: rest => do
    let atom ← Primary.lift owner statement parent p
    let atoms ← Primary.liftAll owner statement parent rest
    return atom :: atoms

/-- The alternatives for definitions. Rules are reserved and defined from left to right, as brackets
begin and end. -/
def Definitions.lift (owner statement parent : String) :
    List (List Primary) → Build (List Alternative)
  | [] => return []
  | alt :: rest => do
    let atoms ← Primary.liftAll owner statement parent alt
    let alts ← Definitions.lift owner statement parent rest
    return atoms :: alts

end

/-- Adds the rule of a statement and the rules lifted out of it, and gives the name of the rule. -/
def Build.statement (raw : List Char) : Build String := do
  match Statement.read raw with
  | .error fault => throw (.grammar fault)
  | .ok s =>
    Build.reserve s.name (some s.text)
    let alts ← Definitions.lift s.name s.text s.name s.definitions
    Build.define { name := s.name, alts, source := s.text, owner := none, kind := none }
    return s.name

end Ebnf
