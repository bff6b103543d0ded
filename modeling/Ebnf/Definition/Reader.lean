import Ebnf.Definition.Primary
import Ebnf.Source.Layout

/-!
# Reading a statement

A statement is a name, an equals sign and definitions. Bars separate alternatives and commas
primaries, each only outside literals and brackets; what stands in a bracket is read in the same
way.

## Main definitions

* `reservedCharacter?` — the first character of a text that a name may not have.
* `readPrimary`, `readAlternative`, `readDefinitions` — the definitions of a text without layout.
* `Statement`, `Statement.read` — a statement, and its reading from a text that may have layout.
* `declaredName?`, `declaredNames` — the names that statements declare.
-/

namespace Ebnf

open Source (closingQuote? bracketEnd? literalEnd? dropBlanks findPlain? splitTop unescapeQuotes)

variable [Pattern.Engine]

/-- The characters that no name may have: quotes, brackets and those that separate or mark
something. -/
def reservedCharacters : List Char :=
  ['"', '[', ']', '\x7b', '\x7d', '(', ')', '|', ',', '=', ';', '!']

/-- The first character of a text that no name may have. -/
def reservedCharacter? (name : List Char) : Option Char :=
  name.find? (reservedCharacters.contains ·)

/-- Reads a primary that begins with the mark of patterns. -/
def readPattern (token : List Char) : Primary :=
  if token.length < 3 ∨ token[1]? ≠ some '"' ∨ literalEnd? token 1 ≠ some (token.length - 1) then
    .unreadable (.malformedPattern token)
  else
    match Pattern.ofSource (String.ofList (unescapeQuotes (token.drop 2).dropLast)) with
    | .ok p => .pattern p
    | .error fault => .unreadable (.invalidPattern token fault)

mutual

/-- Reads a primary, a token between commas. Its first character decides what it is, and what does
not have the form it should have is kept as unreadable. -/
def readPrimary (token : List Char) : Primary :=
  match token with
  | [] => .unreadable .emptyAtom
  | c :: rest =>
    if c = '"' then
      if literalEnd? (c :: rest) 0 = some rest.length then .terminal rest.dropLast
      else .unreadable (.malformedTerminal (c :: rest))
    else if c = '!' then readPattern (c :: rest)
    else
      match Bracket.ofOpener? c with
      | some bracket =>
        if bracketEnd? (c :: rest) 0 = some rest.length then
          .bracketed bracket (readDefinitions rest.dropLast)
        else .unreadable (.malformedGroup bracket (c :: rest))
      | none =>
        match reservedCharacter? (c :: rest) with
        | some bad => .unreadable (.reservedCharacter (c :: rest) bad)
        | none => .name (c :: rest)
termination_by (token.length, 0)
decreasing_by
  rw [List.length_dropLast]
  exact Prod.Lex.left _ _ (by simp only [List.length_cons]; omega)

/-- Reads the primaries of an alternative. If the text cannot be split at its commas, that is its
only primary. -/
def readAlternative (piece : List Char) : List Primary :=
  if piece.isEmpty then [.unreadable .emptyAlternative]
  else
    match _h : splitTop ',' piece with
    | .error fault => [.unreadable (.split fault piece)]
    | .ok tokens => tokens.attach.map fun ⟨token, _ht⟩ => readPrimary token
termination_by (piece.length, 1)
decreasing_by
  have := Source.length_le_of_mem_splitTop _h _ht
  rcases Nat.lt_or_eq_of_le this with h | h
  · exact Prod.Lex.left _ _ h
  · rw [h]; exact Prod.Lex.right _ (by decide)

/-- Reads definitions. If the text cannot be split at its bars, that is all there is in them. -/
def readDefinitions (body : List Char) : Definitions :=
  match _h : splitTop '|' body with
  | .error fault => [[.unreadable (.split fault body)]]
  | .ok pieces => pieces.attach.map fun ⟨piece, _hp⟩ => readAlternative piece
termination_by (body.length, 2)
decreasing_by
  have := Source.length_le_of_mem_splitTop _h _hp
  rcases Nat.lt_or_eq_of_le this with h | h
  · exact Prod.Lex.left _ _ h
  · rw [h]; exact Prod.Lex.right _ (by decide)

end

/-! ### Statements -/

/-- A statement: the definition of a rule, read but not yet lifted. -/
structure Statement where
  /-- The name of the rule. -/
  name : String
  /-- What it stands for. -/
  definitions : Definitions
  /-- The text of the statement, without layout. -/
  text : String

/-- Reads a statement whose text may have layout. The definitions may have primaries that cannot be
read; anything else that is wrong is an error. -/
def Statement.read (raw : List Char) : Except Fault Statement :=
  let text := dropBlanks raw
  let fail := fun cause => Except.error ⟨cause, some (String.ofList text)⟩
  match findPlain? '=' text with
  | none => fail .missingDefiningSymbol
  | some 0 => fail .emptyIdentifier
  | some cut =>
    let name := text.take cut
    match reservedCharacter? name with
    | some c => fail (.reservedCharacter .defined (String.ofList name) c)
    | none =>
      .ok ⟨String.ofList name, readDefinitions (text.drop (cut + 1)), String.ofList text⟩

/-- The name that a statement declares, if it has an equals sign with something before it. -/
def declaredName? (raw : List Char) : Option String :=
  let text := dropBlanks raw
  match findPlain? '=' text with
  | none | some 0 => none
  | some cut => some (String.ofList (text.take cut))

/-- The names that statements declare, in order and with repetitions. No statement has to be well
formed for this. -/
def declaredNames (statements : List (List Char)) : List String :=
  statements.filterMap declaredName?

end Ebnf
