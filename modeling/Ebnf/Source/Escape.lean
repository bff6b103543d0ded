/-!
# Escapes

A terminal's text is written as a literal. Five escapes stand for one character each; a backslash
before any other character stands for itself. A pattern is written as a literal too, but there only
an escaped quote is an escape, since a backslash means something to the pattern.

## Main definitions

* `unescape`, `escape` — a terminal's text from the inside of its literal, and back.
* `unescapeQuotes`, `escapeQuotes` — the same for a pattern's source.
-/

namespace Ebnf.Source

/-- The character for which a backslash and the given one stand. -/
def escaped? : Char → Option Char
  | '"' => some '"'
  | '\\' => some '\\'
  | 'n' => some '\n'
  | 't' => some '\t'
  | 'r' => some '\r'
  | _ => none

/-- The text that the inside of a literal stands for. -/
def unescape : List Char → List Char
  | [] => []
  | '\\' :: c :: rest =>
    match escaped? c with
    | some d => d :: unescape rest
    | none => '\\' :: unescape (c :: rest)
  | c :: rest => c :: unescape rest

/-- The inside of a literal that stands for the text: quotes and backslashes are escaped. -/
def escape (text : List Char) : List Char :=
  text.flatMap fun c => if c = '"' ∨ c = '\\' then ['\\', c] else [c]

/-- The pattern that the inside of a literal holds: each escaped quote becomes a quote. -/
def unescapeQuotes : List Char → List Char
  | [] => []
  | '\\' :: '"' :: rest => '"' :: unescapeQuotes rest
  | c :: rest => c :: unescapeQuotes rest

/-- The inside of a literal that holds the pattern: quotes are escaped. -/
def escapeQuotes (source : List Char) : List Char :=
  source.flatMap fun c => if c = '"' then ['\\', c] else [c]

/-- A text survives being written and read: every backslash that reading takes away was put there by
writing. -/
theorem unescape_escape (text : List Char) : unescape (escape text) = text := by
  induction text with
  | nil => rfl
  | cons c rest ih =>
    by_cases h : c = '"' ∨ c = '\\'
    · rcases h with rfl | rfl <;> simpa [escape, unescape, escaped?] using ih
    · have hne : c ≠ '\\' := fun heq => h (.inr heq)
      have : escape (c :: rest) = c :: escape rest := by simp [escape, h]
      rw [this, unescape, ih]
      · exact fun d r hd => absurd hd hne

end Ebnf.Source
