import Ebnf.Source.Layout
import Ebnf.Source.Split
import Ebnf.Source.Statement

/-!
# Passes over a text

Whatever is to be known of a text, one pass over it is enough.  A pass goes from position to
position and keeps a mark that says whether it is within a literal; with each character it changes
its mark and its state and goes on, or it has its answer and ends.  Each pass keeps account of
literals for itself.

## Main definitions

* `Visit` — a position that a pass comes to, with its mark.
* `Round`, `Loop` — what a pass does with a character, and a pass as a whole.
* `Loop.run` — the visits of a pass, and its answer.
* `commentLoop`, `statementLoop`, `blankLoop`, `findLoop`, `splitLoop`, `bracketLoop`, `quoteLoop` —
  the passes.
* `Pass`, `Pass.run`, `Pass.answer` — those that begin outside literals, and what each is for.
-/

namespace Ebnf.Source

open Text (Position isBlank isBlankText strip)

variable {σ ρ : Type}

/-- A position that a pass comes to, with the mark that the pass carries there. -/
structure Visit where
  /-- The position. -/
  position : Nat
  /-- Whether the pass takes it to be within a literal. -/
  inLiteral : Bool
  deriving DecidableEq, Repr

/-- A pass begins at the first position, outside literals. -/
def Visit.first : Visit := ⟨0, false⟩

/-! ### Rounds and loops -/

/-- What a pass does with a character: it is done, or goes on somewhere behind. -/
inductive Round (σ ρ : Type) where
  /-- It goes on behind the character and `skipped` more, with this mark and this state. -/
  | next (skipped : Nat) (inLiteral : Bool) (state : σ)
  /-- It ends with an answer. -/
  | done (answer : ρ)

namespace Round

/-- A round within a literal: a backslash takes the next character along. -/
def within (c : Char) (state : σ) : Round σ ρ :=
  if c = '\\' then .next 1 true state
  else if c = '"' then .next 0 false state
  else .next 0 true state

/-- A round within a literal that copies the characters: a backslash takes the next one along if
there is one. -/
def copy (text : List Char) (position : Nat) (c : Char) (out : List Char) : Round (List Char) ρ :=
  if _h : c = '\\' ∧ position + 1 < text.length then .next 1 true (out ++ [c, text[position + 1]])
  else if c = '"' then .next 0 false (out ++ [c])
  else .next 0 true (out ++ [c])

end Round

/-- A pass over a text, by positions. It carries a state of its own and a mark that tells whether it
is within a literal. -/
structure Loop (σ ρ : Type) where
  /-- The state at the beginning. -/
  start : σ
  /-- What is done with a character. -/
  round : (text : List Char) → Visit → Char → σ → Round σ ρ
  /-- The answer at the end of the text, with the mark there. -/
  finish : (text : List Char) → (inLiteral : Bool) → σ → ρ

/-- The visits of a pass from one of them on, the last one included, and its answer. -/
def Loop.run (loop : Loop σ ρ) (text : List Char) (visit : Visit) (state : σ) : List Visit × ρ :=
  if _h : visit.position < text.length then
    match loop.round text visit text[visit.position] state with
    | .next skipped inLiteral state =>
      let (visits, answer) := loop.run text ⟨visit.position + 1 + skipped, inLiteral⟩ state
      (visit :: visits, answer)
    | .done answer => ([visit], answer)
  else ([visit], loop.finish text visit.inLiteral state)
termination_by text.length - visit.position

/-! ### The passes -/

/-- Drops comments, jumping over each to what follows its closing mark. -/
def commentLoop : Loop (List Char) (Except Position (List Char)) where
  start := []
  round text visit c out :=
    if visit.inLiteral then .copy text visit.position c out
    else if ['(', '*'] <+: text.drop visit.position then
      match cutComment? (text.drop (visit.position + 2)) with
      | none => .done (.error (Position.first.after (text.take visit.position)))
      | some (body, _) => .next (body.length + 3) false (out ++ commentTrace body)
    else if c = '"' then .next 0 true (out ++ [c])
    else .next 0 false (out ++ [c])
  finish _ _ out := .ok out

/-- The state of cutting into statements: where the one at hand begins, where the last literal
opened, and which are complete. -/
structure StatementState where
  /-- Where the statement at hand begins. -/
  start : Nat
  /-- The last quote that opens a literal. -/
  quote : Nat
  /-- The statements before, without blank ones. -/
  complete : List (List Char)

/-- Cuts a text without comments into statements. -/
def statementLoop : Loop StatementState Statements where
  start := ⟨0, 0, []⟩
  round text visit c state :=
    if visit.inLiteral then .within c state
    else if c = '"' then .next 0 true { state with quote := visit.position }
    else if c = ';' then
      let piece := (text.take visit.position).drop state.start
      .next 0 false { state with
        start := visit.position + 1
        complete := state.complete ++ [piece].filter (!isBlankText ·) }
    else .next 0 false state
  finish text inLiteral state :=
    let piece := text.drop state.start
    if inLiteral then
      ⟨state.complete,
        some (.openLiteral (Position.first.after (text.take state.quote)) (strip piece))⟩
    else ⟨state.complete ++ [piece].filter (!isBlankText ·), none⟩

/-- Drops blanks outside literals, and keeps everything else as it is. -/
def blankLoop : Loop (List Char) (List Char) where
  start := []
  round text visit c out :=
    if visit.inLiteral then .copy text visit.position c out
    else if c = '"' then .next 0 true (out ++ [c])
    else if isBlank c then .next 0 false out
    else .next 0 false (out ++ [c])
  finish _ _ out := out

/-- Finds a character outside literals, and is done at the first one. -/
def findLoop (target : Char) : Loop Unit (Option Nat) where
  start := ()
  round _ visit c _ :=
    if visit.inLiteral then .within c ()
    else if c = '"' then .next 0 true ()
    else if c = target then .done (some visit.position)
    else .next 0 false ()
  finish _ _ _ := none

/-- The state of splitting: the pieces, the one that has begun, and the brackets that are open. -/
structure SplitState where
  /-- Where the piece at hand begins. -/
  start : Nat
  /-- The open brackets, innermost first. -/
  opened : List Bracket
  /-- The pieces before. -/
  pieces : List (List Char)

/-- Splits outside literals and brackets, and is done at a closer that answers no bracket. -/
def splitLoop (sep : Char) : Loop SplitState (Except SplitFault (List (List Char))) where
  start := ⟨0, [], []⟩
  round text visit c state :=
    if visit.inLiteral then .within c state
    else if c = '"' then .next 0 true state
    else
      match Bracket.track state.opened c with
      | none => .done (.error (.unexpectedCloser c))
      | some opened =>
        if separates sep c = true ∧ state.opened = [] then
          let piece := (text.take visit.position).drop state.start
          .next 0 false { state with
            start := visit.position + 1
            pieces := state.pieces ++ [piece] }
        else .next 0 false { state with opened }
  finish text inLiteral state :=
    if inLiteral then .error .openLiteral
    else
      match state.opened with
      | b :: _ => .error (.missingCloser b)
      | [] => .ok (state.pieces ++ [text.drop state.start])

/-- Finds the end of a bracket by counting brackets of any kind. -/
def bracketLoop : Loop Int (Option Nat) where
  start := 0
  round _ visit c depth :=
    if visit.inLiteral then .within c depth
    else if c = '"' then .next 0 true depth
    else if (Bracket.ofOpener? c).isSome then .next 0 false (depth + 1)
    else if (Bracket.ofCloser? c).isSome then
      if depth - 1 = 0 then .done (some visit.position) else .next 0 false (depth - 1)
    else .next 0 false depth
  finish _ _ _ := none

/-- Finds the end of the literal in which it begins. -/
def quoteLoop : Loop Unit (Option Nat) where
  start := ()
  round _ visit c _ :=
    if c = '\\' then .next 1 true ()
    else if c = '"' then .done (some visit.position)
    else .next 0 true ()
  finish _ _ _ := none

/-! ### What they are for -/

/-- The passes that begin at the first position, outside literals. -/
inductive Pass where
  /-- Comments are dropped. -/
  | comments
  /-- Comments are dropped, and what is left is cut into statements. -/
  | statements
  /-- Blanks are dropped. -/
  | blanks
  /-- A character is looked for. -/
  | find (target : Char)
  /-- The text is split. -/
  | split (sep : Char)
  /-- The end of the bracket is looked for that opens at the first position. -/
  | bracket

namespace Pass

/-- What a pass has for an answer: a text, a position, pieces or what is wrong, each in the form of
the scanner it stands for. -/
abbrev Answer : Pass → Type
  | .comments => Except Position (List Char)
  | .statements => Statements
  | .blanks => List Char
  | .find _ => Option Nat
  | .split _ => Except SplitFault (List (List Char))
  | .bracket => Option Nat

/-- The visits of a pass and its answer.  Statements are cut in a second pass, over what the first
one leaves. -/
def run : (pass : Pass) → List Char → List Visit × pass.Answer
  | .comments, text => commentLoop.run text .first commentLoop.start
  | .statements, text =>
    match stripComments text with
    | .error place => ([], ⟨[], some (.openComment place)⟩)
    | .ok stripped => statementLoop.run stripped .first statementLoop.start
  | .blanks, text => blankLoop.run text .first blankLoop.start
  | .find target, text => (findLoop target).run text .first (findLoop target).start
  | .split sep, text => (splitLoop sep).run text .first (splitLoop sep).start
  | .bracket, text => bracketLoop.run text .first bracketLoop.start

/-- The visits of a pass over a text, the end of the text included if it gets there. -/
def visits (pass : Pass) (text : List Char) : List Visit := (pass.run text).1

/-- What a pass over a text is to find out. -/
def answer : (pass : Pass) → (text : List Char) → pass.Answer
  | .comments, text => stripComments text
  | .statements, text => Source.statements text
  | .blanks, text => dropBlanks text
  | .find target, text => findPlain? target text
  | .split sep, text => splitTop sep text
  | .bracket, text => bracketEnd? text 0

end Pass

end Ebnf.Source
