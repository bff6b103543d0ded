/-!
# Engines for regular expressions

What a pattern matches is not defined here. The library is written over an engine for regular
expressions, which compiles a source or says what is wrong with it, and all that is known of what
it compiles is that a match ends within the text.

## Main definitions

* `Matcher` — a compiled regular expression.
* `Fault` — what an engine says of a source that is no regular expression.
* `Engine` — an engine.
* `Engine.verbatim` — the engine for which every source stands for itself.
-/

namespace Ebnf.Pattern

/-- A compiled regular expression. It is matched at the start of a text and sees nothing before
it, so that what it takes depends on this text alone. -/
structure Matcher where
  /-- How many characters the expression takes from the start of a text, if it matches there. -/
  matchLength? : List Char → Option Nat
  /-- A match ends within the text. -/
  le_length_of_match {text : List Char} {n : Nat} : matchLength? text = some n → n ≤ text.length

/-- What an engine says of a source that is no regular expression. -/
structure Fault where
  /-- The text that reports it. -/
  message : String
  deriving DecidableEq, Repr

/-- An engine for regular expressions. Its answer depends on the source alone. -/
class Engine where
  /-- Compiles a source, or says what is wrong with it. -/
  compile : String → Except Fault Matcher

/-- The expression that takes the given characters. -/
def Matcher.verbatim (source : List Char) : Matcher where
  matchLength? text := if source.isPrefixOf text then some source.length else none
  le_length_of_match h := by
    split at h
    · next hstart =>
      cases h
      exact (List.isPrefixOf_iff_prefix.mp hstart).length_le
    · cases h

/-- The engine for which every source stands for itself. Every engine for regular expressions agrees
with it on sources in which no character has a special meaning, such as letters, digits and
quotes. -/
@[reducible] def Engine.verbatim : Engine where
  compile source := .ok (.verbatim source.toList)

end Ebnf.Pattern
