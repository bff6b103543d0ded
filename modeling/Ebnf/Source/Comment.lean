import Ebnf.Source.Literal
import Ebnf.Text.Position

/-!
# Comments

A comment begins with `(*` outside literals and ends with the first `*)` that follows; comments do
not nest, and the star of the opening mark cannot serve in the closing one. A comment's newlines
stay in its place, so that lines keep their numbers, and a comment without newlines leaves one
space.

## Main definitions

* `cutComment?` — a comment's body and what follows the closing mark.
* `commentTrace` — what stays in place of a comment.
* `stripComments` — a text without its comments, or the place of a comment that is not closed.
-/

namespace Ebnf.Source

open Text (Position)

/-- The text before the first closing mark, and the text after it. -/
def cutComment? : List Char → Option (List Char × List Char)
  | [] => none
  | '*' :: ')' :: rest => some ([], rest)
  | c :: rest => (cutComment? rest).map fun (body, tail) => (c :: body, tail)

/-- Nothing is lost when a comment is cut off. -/
theorem eq_append_of_cutComment? {text body tail : List Char}
    (h : cutComment? text = some (body, tail)) : text = body ++ '*' :: ')' :: tail := by
  fun_induction cutComment? text generalizing body with
  | case1 => simp at h
  | case2 rest => simp_all
  | case3 c rest _ ih =>
    obtain ⟨⟨b, t⟩, hb, heq⟩ := Option.map_eq_some_iff.1 h
    obtain ⟨rfl, rfl⟩ := Prod.mk.inj heq
    simp [ih hb]

/-- What stays of a comment: its newlines, or a space if it has none. -/
def commentTrace (body : List Char) : List Char :=
  match body.filter (· = '\n') with
  | [] => [' ']
  | newlines => newlines

/-- The text without comments, read on in the given mode from the given place. The error is the
place of the mark that opens a comment without end. -/
def stripCommentsFrom (mode : Mode) (place : Position) (text : List Char) :
    Except Position (List Char) :=
  match mode, text with
  | _, [] => .ok []
  | .plain, '(' :: '*' :: rest =>
    match _h : cutComment? rest with
    | none => .error place
    | some (body, tail) =>
      (commentTrace body ++ ·) <$>
        stripCommentsFrom .plain (place.after ('(' :: '*' :: (body ++ ['*', ')']))) tail
  | mode, c :: rest => (c :: ·) <$> stripCommentsFrom (mode.next c) (place.advance c) rest
termination_by text.length
decreasing_by
  · simp [eq_append_of_cutComment? _h]; omega
  · simp

/-- The text without its comments, or the place of the mark that opens one without end. -/
def stripComments (text : List Char) : Except Position (List Char) :=
  stripCommentsFrom .plain .first text

end Ebnf.Source
