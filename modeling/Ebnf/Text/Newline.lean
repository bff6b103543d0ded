/-!
# Line ends

Texts read from files mark the end of a line in three ways; within the library only the newline
character does.

## Main definitions

* `unifyNewlines` — a carriage return, alone or before a newline, becomes a newline.
-/

namespace Ebnf.Text

/-- The text with every line end written as one newline. -/
def unifyNewlines : List Char → List Char
  | [] => []
  | '\r' :: '\n' :: rest => '\n' :: unifyNewlines rest
  | c :: rest => (if c = '\r' then '\n' else c) :: unifyNewlines rest

end Ebnf.Text
