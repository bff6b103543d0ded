import Mathlib.Data.List.Induction
import Ebnf.Proofs.Source.Statements

/-!
# What is left without comments

Read from left to right, a text is made of characters, literals and comments, in one way only, and
it may end in a literal or a comment that nothing closes.  Dropping comments takes nothing else
away, and since a comment leaves blanks, what is left has neither comments nor parts that were not
there before.  A comment leaves as many newlines as it has, so what is left is on the lines where it
was.

## Main definitions

* `Source.Part`, `Source.Ending` — what a text is made of, and what is open at its end.
* `Source.Reads` — the text is made of these parts, with this ending.
* `Source.Survives` — a character that no comment takes away.

## Main results

* `Source.exists_reads`, `Source.Reads.unique` — a text is made of parts in one way.
* `Text.Position.exists_lines` — the place after a text, in terms of lines.
* `Source.stripComments_spec` — **what dropping comments leaves, and when and where it fails.**
-/

namespace Ebnf

namespace Text.Position

/-! ### Lines -/

/-- The place after `before` counts the lines that `before` ends and the characters that it has in
the line after them. -/
theorem exists_lines (before rest : List Char) : ∃ earlier start : List _,
    earlier.flatMap (· ++ ['\n']) ++ start = before ∧
      first.after before = ⟨earlier.length + 1, start.length + 1⟩ ∧
      (before ++ rest).splitOn '\n' = earlier ++ (rest.splitOn '\n').modifyHead (start ++ ·) := by
  induction before using List.reverseRecOn generalizing rest with
  | nil =>
    refine ⟨[], [], rfl, rfl, ?_⟩
    rw [List.nil_append, List.nil_append]
    exact (congrFun List.modifyHead_id _).symm
  | append_singleton before c ih =>
    obtain ⟨earlier, start, hbefore, hplace, hsplit⟩ := ih (c :: rest)
    rw [List.append_assoc, List.singleton_append, hsplit, after_append, hplace,
      List.splitOn_cons_eq_if_modifyHead, after_cons, after_nil, advance]
    by_cases hc : c = '\n'
    · refine ⟨earlier ++ [start], [], by simp [← hbefore, hc], by simp [hc], ?_⟩
      cases h : rest.splitOn '\n' <;> simp [hc]
    · refine ⟨earlier, start ++ [c], by simp [← hbefore], by simp [hc], ?_⟩
      cases h : rest.splitOn '\n' <;> simp [hc]

/-- A newline ends a line, and nothing else does. -/
theorem line_after (place : Position) (text : List Char) :
    (place.after text).line = place.line + text.count '\n' := by
  induction text generalizing place with
  | nil => rfl
  | cons c text ih =>
    rw [after_cons, ih, advance, List.count_cons]
    by_cases hc : c = '\n'
    · simp [hc]
      omega
    · simp [hc]

end Text.Position

namespace Source

open Text (Position isBlank)

/-! ### Parts -/

/-- What is read as a whole: a character, a literal or a comment that has an end. -/
inductive Part where
  /-- A character outside literals. -/
  | char (c : Char)
  /-- A literal, with what stands between its quotes. -/
  | literal (body : List Char)
  /-- A comment, with what stands between its marks. -/
  | comment (body : List Char)
  deriving DecidableEq, Repr

/-- What is open at the end of a text: nothing, a literal or a comment. -/
inductive Ending where
  /-- Nothing. -/
  | none
  /-- A literal, with what stands after its quote. -/
  | literal (body : List Char)
  /-- A comment, with what stands after its mark. -/
  | comment (body : List Char)
  deriving DecidableEq, Repr

namespace Part

/-- How the part is written. -/
def text : Part → List Char
  | char c => [c]
  | literal body => '"' :: (body ++ ['"'])
  | comment body => '(' :: '*' :: (body ++ ['*', ')'])

/-- The part may stand before the rest of a text. -/
def Fits : Part → List Char → Prop
  | char c, rest => c ≠ '"' ∧ (c = '(' → rest.head? ≠ some '*')
  | literal body, _ => LiteralBody body
  | comment body, _ => ¬['*', ')'] <:+: body

/-- What dropping comments leaves of the part. -/
def left : Part → List Part
  | comment body => (commentTrace body).map char
  | part => [part]

/-- The part as it is written, if it is a literal. -/
def literal? : Part → Option (List Char)
  | literal body => some (literal body).text
  | _ => .none

end Part

namespace Ending

/-- How it is written. -/
def text : Ending → List Char
  | none => []
  | literal body => '"' :: body
  | comment body => '(' :: '*' :: body

/-- It is not closed. -/
def IsOpen : Ending → Prop
  | none => True
  | literal body => StaysOpen .literal body
  | comment body => ¬['*', ')'] <:+: body

theorem text_injective {ending ending' : Ending} (h : ending.text = ending'.text) :
    ending = ending' := by
  cases ending <;> cases ending' <;> simp_all [text]

end Ending

/-- The text that the parts make up. -/
def textOf (parts : List Part) : List Char := parts.flatMap Part.text

@[simp] theorem textOf_nil : textOf [] = [] := rfl

@[simp] theorem textOf_cons (part : Part) (parts : List Part) :
    textOf (part :: parts) = part.text ++ textOf parts := rfl

@[simp] theorem textOf_append (parts parts' : List Part) :
    textOf (parts ++ parts') = textOf parts ++ textOf parts' := List.flatMap_append

@[simp] theorem textOf_map_char (text : List Char) : textOf (text.map .char) = text := by
  induction text with
  | nil => rfl
  | cons c text ih => rw [List.map_cons, textOf_cons, ih, Part.text, List.singleton_append]

/-- The text is made of these parts, with this ending. Where a comment or a literal begins it is
read as one, so there is no other way. -/
inductive Reads : List Char → List Part → Ending → Prop
  /-- What is open at the end. -/
  | ending {ending : Ending} (h : ending.IsOpen) : Reads ending.text [] ending
  /-- One more part before others. -/
  | part {part : Part} {rest : List Char} {parts : List Part} {ending : Ending}
    (hpart : part.Fits rest) (h : Reads rest parts ending) :
    Reads (part.text ++ rest) (part :: parts) ending

/-- The first part of a text and the rest. -/
def cutPart? : List Char → Option (Part × List Char)
  | [] => none
  | '"' :: text => (closingQuote? text).map fun n => (.literal (text.take n), text.drop (n + 1))
  | '(' :: '*' :: text => (cutComment? text).map fun (body, rest) => (.comment body, rest)
  | c :: rest => some (.char c, rest)

theorem closingQuote?_eq_none_iff {text : List Char} :
    closingQuote? text = none ↔ StaysOpen .literal text := by
  have hliteral : Mode.literal ≠ .plain := by decide
  have hescape : Mode.escape ≠ .plain := by decide
  have hnil : ∀ mode : Mode, mode ≠ .plain → StaysOpen mode [] := by
    intro mode hmode part hpart
    rwa [List.prefix_nil.mp hpart]
  fun_induction closingQuote? text with
  -- at the end of the text the literal is open
  | case1 => exact iff_of_true rfl (hnil _ hliteral)
  -- behind a backslash the literal goes on, as if the two characters were not there
  | case2 c rest ih =>
    rw [Option.map_eq_none_iff, staysOpen_cons hliteral]
    exact ih.trans (staysOpen_cons hescape).symm
  -- a quote closes the literal
  | case3 rest =>
    rw [staysOpen_cons hliteral]
    exact iff_of_false (by simp) (not_staysOpen_plain rest)
  | case4 c rest hbackslash hquote ih =>
    rw [Option.map_eq_none_iff, staysOpen_cons hliteral, Mode.next, if_neg hquote]
    refine ih.trans ?_
    by_cases hc : c = '\\'
    · -- a backslash takes the next character along, but there is none
      obtain rfl : rest = [] := by
        cases rest with
        | nil => rfl
        | cons d rest => exact absurd rfl (hbackslash d rest hc)
      rw [if_pos hc]
      exact iff_of_true (hnil _ hliteral) (hnil _ hescape)
    · rw [if_neg hc]

theorem cutPart?_eq_some_iff {text rest : List Char} {part : Part} :
    cutPart? text = some (part, rest) ↔ text = part.text ++ rest ∧ part.Fits rest := by
  constructor
  · -- what is cut off is put before the rest again, case by case of how it was cut
    intro h
    fun_cases cutPart? text with
    | case1 => cases h
    | case2 text =>
      obtain ⟨n, hn, heq⟩ := Option.map_eq_some_iff.mp h
      cases heq
      obtain ⟨body, after, rfl, hbody, rfl⟩ := closingQuote?_eq_some_iff.mp hn
      have hdrop : (body ++ '"' :: after).drop (body.length + 1) = after := by simp
      rw [List.take_left, hdrop]
      exact ⟨by simp [Part.text], hbody⟩
    -- a comment is closed where the first mark of an end stands
    | case3 text =>
      obtain ⟨⟨body, after⟩, hcut, heq⟩ := Option.map_eq_some_iff.mp h
      cases heq
      obtain ⟨rfl, hbody⟩ := cutComment?_eq_some_iff.mp hcut
      exact ⟨by simp [Part.text], hbody⟩
    -- any other character stands for itself, and neither of the two cases above applies to it
    | case4 c rest hquote hopens =>
      rw [cutPart?.eq_4 _ _ hquote hopens] at h
      cases h
      refine ⟨rfl, fun hc => hquote hc, fun hc hhead => ?_⟩
      obtain ⟨tail, rfl⟩ := List.head?_eq_some_iff.mp hhead
      exact hopens tail hc rfl
  · rintro ⟨rfl, hfits⟩
    -- a part that fits is cut off as it stands
    cases part with
    | char c =>
      obtain ⟨hquote, hopens⟩ := hfits
      exact cutPart?.eq_4 _ _ hquote fun tail hc hrest => hopens hc (congrArg List.head? hrest)
    | literal body =>
      have hclose : closingQuote? (body ++ '"' :: rest) = some body.length :=
        closingQuote?_eq_some_iff.mpr ⟨body, rest, rfl, hfits, rfl⟩
      simp [Part.text, cutPart?, hclose]
    | comment body =>
      have hcut : cutComment? (body ++ '*' :: ')' :: rest) = some (body, rest) :=
        cutComment?_eq_some_iff.mpr ⟨rfl, hfits⟩
      simp [Part.text, cutPart?, hcut]

theorem cutPart?_eq_none_iff {text : List Char} :
    cutPart? text = none ↔ ∃ ending : Ending, ending.IsOpen ∧ text = ending.text := by
  constructor
  · intro h
    fun_cases cutPart? text with
    | case1 => exact ⟨.none, trivial, rfl⟩
    | case2 text =>
      exact ⟨.literal text, closingQuote?_eq_none_iff.mp (Option.map_eq_none_iff.mp h), rfl⟩
    | case3 text =>
      exact ⟨.comment text, cutComment?_eq_none_iff.mp (Option.map_eq_none_iff.mp h), rfl⟩
    | case4 c rest hquote hopens =>
      rw [cutPart?.eq_4 _ _ hquote hopens] at h
      cases h
  · rintro ⟨ending, hopen, rfl⟩
    cases ending with
    | none => rfl
    | literal body => exact Option.map_eq_none_iff.mpr (closingQuote?_eq_none_iff.mpr hopen)
    | comment body => exact Option.map_eq_none_iff.mpr (cutComment?_eq_none_iff.mpr hopen)

/-- A text is made of parts: what begins at its start is one of them, or is open at its end. -/
theorem exists_reads (text : List Char) : ∃ parts ending, Reads text parts ending := by
  induction hn : text.length using Nat.strongRecOn generalizing text with
  | ind n ih =>
    rcases hcut : cutPart? text with _ | ⟨part, rest⟩
    · obtain ⟨ending, hopen, rfl⟩ := cutPart?_eq_none_iff.mp hcut
      exact ⟨[], ending, .ending hopen⟩
    · obtain ⟨rfl, hfits⟩ := cutPart?_eq_some_iff.mp hcut
      have hpos : 0 < part.text.length := by cases part <;> simp [Part.text]
      rw [List.length_append] at hn
      obtain ⟨parts, ending, h⟩ := ih rest.length (by omega) rest rfl
      exact ⟨part :: parts, ending, .part hfits h⟩

namespace Reads

variable {text : List Char} {parts : List Part} {ending : Ending}

/-- There is only one way to read a text: what its first character begins is one part, or the
ending. -/
theorem unique (h : Reads text parts ending) {parts' : List Part} {ending' : Ending}
    (h' : Reads text parts' ending') : parts' = parts ∧ ending' = ending := by
  induction h generalizing parts' with
  | @ending ending hopen =>
    have hcut := cutPart?_eq_none_iff.mpr ⟨ending, hopen, rfl⟩
    generalize htext : ending.text = text at h' hcut
    cases h' with
    | ending => exact ⟨rfl, (Ending.text_injective htext).symm⟩
    | part hpart => rw [cutPart?_eq_some_iff.mpr ⟨rfl, hpart⟩] at hcut; cases hcut
  | @part part rest parts ending hpart _ ih =>
    have hcut := cutPart?_eq_some_iff.mpr ⟨rfl, hpart⟩
    generalize htext : part.text ++ rest = text at h' hcut
    cases h' with
    | ending hopen => rw [cutPart?_eq_none_iff.mpr ⟨_, hopen, rfl⟩] at hcut; cases hcut
    | part hpart' h' =>
      rw [cutPart?_eq_some_iff.mpr ⟨rfl, hpart'⟩] at hcut
      cases hcut
      obtain ⟨rfl, rfl⟩ := ih h'
      exact ⟨rfl, rfl⟩

theorem text_eq (h : Reads text parts ending) : text = textOf parts ++ ending.text := by
  induction h with
  | ending => rfl
  | part _ _ ih => rw [ih, textOf_cons, List.append_assoc, ← ih]

theorem isOpen (h : Reads text parts ending) : ending.IsOpen := by
  induction h with
  | ending hopen => exact hopen
  | part _ _ ih => exact ih

end Reads

/-! ### Dropping comments -/

/-- Where the part stands, dropping comments comes to its end and leaves what it should. -/
theorem Part.Fits.strips {part : Part} {rest : List Char} (h : part.Fits rest) :
    Strips .plain part.text rest (textOf part.left) .plain := by
  cases part with
  | char c =>
    obtain ⟨hquote, hopens⟩ := h
    have hnext : Mode.next .plain c = .plain := Mode.next_plain hquote
    refine .char (fun _ hc => hopens hc) ?_
    rw [hnext]
    exact .here .plain rest
  | literal body =>
    have hquoted := (LiteralBody.strips_quoted h rest).1
    simpa [Part.left, Part.text] using hquoted
  | comment body =>
    rw [Part.left, textOf_map_char]
    have hstrips := Strips.comment h (.here .plain rest)
    rwa [List.append_nil] at hstrips

/-- Within a literal that stays open no comment is looked for. -/
theorem StaysOpen.strips {mode : Mode} {text : List Char} (h : StaysOpen mode text) :
    ∃ mode', Strips mode text [] text mode' := by
  induction text generalizing mode with
  | nil => exact ⟨mode, .here mode []⟩
  | cons c text ih =>
    have hmode : mode ≠ .plain := fun hplain => not_staysOpen_plain _ (hplain ▸ h)
    obtain ⟨mode', hstrips⟩ := ih ((staysOpen_cons hmode).mp h)
    exact ⟨mode', .char (fun hplain => absurd hplain hmode) hstrips⟩

/-- What is left of a part fits where what is left of the rest follows. -/
theorem Part.Fits.left {part : Part} {rest rest' : List Char} (h : part.Fits rest)
    (hhead : rest.head? ≠ some '*' → rest'.head? ≠ some '*') {parts : List Part} {ending : Ending}
    (hrest : Reads rest' parts ending) :
    Reads (textOf part.left ++ rest') (part.left ++ parts) ending := by
  cases part with
  -- a character that opens no comment in the text opens none in what is left
  | char c =>
    have hfits : (Part.char c).Fits rest' := ⟨h.1, fun hc => hhead (h.2 hc)⟩
    exact .part hfits hrest
  | literal body =>
    have hfits : (Part.literal body).Fits rest' := h
    have hreads := Reads.part hfits hrest
    rwa [← List.append_nil (Part.literal body).text] at hreads
  -- of a comment only blanks are left, and each of them is a character by itself
  | comment body =>
    have hblank : ∀ c ∈ commentTrace body, isBlank c = true := isBlank_of_mem_commentTrace
    rw [Part.left, textOf_map_char]
    generalize commentTrace body = blanks at hblank
    induction blanks with
    | nil => exact hrest
    | cons c blanks ih =>
      obtain ⟨hc, hblanks⟩ := List.forall_mem_cons.mp hblank
      have hfits : (Part.char c).Fits (blanks ++ rest') := by
        constructor
        · rintro rfl
          exact absurd hc (by decide)
        · rintro rfl
          exact absurd hc (by decide)
      exact .part hfits (ih hblanks)

namespace Reads

variable {text : List Char} {parts : List Part} {ending : Ending}

theorem strips (h : Reads text parts ending) :
    Strips .plain (textOf parts) ending.text (textOf (parts.flatMap Part.left)) .plain := by
  induction h with
  | ending => exact .here .plain _
  | @part part rest parts ending hpart hrest ih =>
    rw [hrest.text_eq] at hpart
    rw [textOf_cons, List.flatMap_cons, textOf_append]
    exact hpart.strips.trans ih

/-- What is left begins with a star only if the text does. -/
theorem head?_ne (h : Reads text parts ending) (hhead : text.head? ≠ some '*') :
    (textOf (parts.flatMap Part.left) ++ ending.text).head? ≠ some '*' := by
  cases h with
  | ending => exact hhead
  | @part part rest parts ending =>
    cases part with
    | char c => exact hhead
    | literal body => exact hhead
    | comment body =>
      -- the trace of a comment is never empty, so what is left begins with a blank
      have hne : commentTrace body ≠ [] := by
        rw [commentTrace]
        split
        · exact List.cons_ne_nil _ _
        · next h => exact h
      obtain ⟨c, blanks, htrace⟩ := List.exists_cons_of_ne_nil hne
      have hblank : isBlank c = true :=
        isBlank_of_mem_commentTrace c (htrace ▸ List.mem_cons_self)
      rw [List.flatMap_cons, textOf_append, Part.left, textOf_map_char, htrace]
      rintro heq
      rw [Option.some.inj heq] at hblank
      exact absurd hblank (by decide)

/-- How what is left of a text is read: as before, but for the comments. -/
theorem left (h : Reads text parts ending) :
    Reads (textOf (parts.flatMap Part.left) ++ ending.text) (parts.flatMap Part.left) ending := by
  induction h with
  | ending hopen => exact .ending hopen
  | @part part rest parts ending hpart hrest ih =>
    rw [List.flatMap_cons, textOf_append, List.append_assoc]
    exact hpart.left hrest.head?_ne ih

/-- Where no comment is open, dropping comments comes to the end. -/
theorem exists_strips (h : Reads text parts ending) (hclosed : ∀ body, ending ≠ .comment body) :
    ∃ mode, Strips .plain text [] (textOf (parts.flatMap Part.left) ++ ending.text) mode := by
  have hend : ∃ mode, Strips .plain ending.text [] ending.text mode := by
    cases hending : ending with
    | none => exact ⟨.plain, .here .plain []⟩
    | literal body =>
      have hopen : (Ending.literal body).IsOpen := hending ▸ h.isOpen
      obtain ⟨mode, hstrips⟩ := StaysOpen.strips hopen
      exact ⟨mode, .char (fun _ hc => absurd hc (by decide)) hstrips⟩
    | comment body => exact absurd hending (hclosed body)
  obtain ⟨mode, hend⟩ := hend
  have hparts := h.strips
  rw [← List.append_nil ending.text] at hparts
  rw [h.text_eq]
  exact ⟨mode, hparts.trans hend⟩

theorem stripComments_eq_ok (h : Reads text parts ending)
    (hclosed : ∀ body, ending ≠ .comment body) :
    stripComments text = .ok (textOf (parts.flatMap Part.left) ++ ending.text) := by
  obtain ⟨mode, hstrips⟩ := h.exists_strips hclosed
  exact hstrips.stripComments_eq

theorem stripComments_eq_error {body : List Char} (h : Reads text parts (.comment body)) :
    stripComments text = .error (Position.first.after (textOf parts)) :=
  OpensComment.stripComments_eq ⟨body, _, h.text_eq, h.strips, h.isOpen⟩

theorem stripComments_eq_error_iff (h : Reads text parts ending) {place : Position} :
    stripComments text = .error place ↔
      (∃ body, ending = .comment body) ∧ place = Position.first.after (textOf parts) := by
  constructor
  · intro hplace
    by_cases hclosed : ∀ body, ending ≠ .comment body
    · rw [h.stripComments_eq_ok hclosed] at hplace
      cases hplace
    · push Not at hclosed
      obtain ⟨body, rfl⟩ := hclosed
      rw [h.stripComments_eq_error] at hplace
      cases hplace
      exact ⟨⟨body, rfl⟩, rfl⟩
  · rintro ⟨⟨body, rfl⟩, rfl⟩
    exact h.stripComments_eq_error

theorem eq_of_stripComments_eq_ok (h : Reads text parts ending) {stripped : List Char}
    (hstripped : stripComments text = .ok stripped) :
    (∀ body, ending ≠ .comment body) ∧
      stripped = textOf (parts.flatMap Part.left) ++ ending.text := by
  have hclosed : ∀ body, ending ≠ .comment body := by
    rintro body rfl
    rw [h.stripComments_eq_error] at hstripped
    cases hstripped
  rw [h.stripComments_eq_ok hclosed] at hstripped
  cases hstripped
  exact ⟨hclosed, rfl⟩

end Reads

/-- Dropping comments a second time takes nothing away. -/
theorem left_left (parts : List Part) :
    (parts.flatMap Part.left).flatMap Part.left = parts.flatMap Part.left := by
  induction parts with
  | nil => rfl
  | cons part parts ih =>
    rw [List.flatMap_cons, List.flatMap_append, ih]
    cases part with
    | char c => rfl
    | literal body => rfl
    | comment body =>
      have hchar : (fun c : Char => (Part.char c).left) = fun c => [Part.char c] := rfl
      rw [Part.left, List.flatMap_map, hchar, List.map_eq_flatMap]

theorem literals_left (parts : List Part) :
    (parts.flatMap Part.left).filterMap Part.literal? = parts.filterMap Part.literal? := by
  induction parts with
  | nil => rfl
  | cons part parts ih =>
    rw [List.flatMap_cons, List.filterMap_append, ih]
    cases part with
    | char c => rfl
    | literal body => rfl
    | comment body =>
      have hnone : ((commentTrace body).map Part.char).filterMap Part.literal? = [] := by
        simp [List.filterMap_map, Function.comp_def, Part.literal?]
      rw [Part.left, hnone]
      rfl

/-! ### Characters -/

section Strip

variable {mode mode' : Mode} {before rest out text : List Char}

theorem length_commentTrace_le (body : List Char) :
    (commentTrace body).length ≤ body.length + 1 := by
  have hfilter := List.length_filter_le (· = '\n') body
  rw [commentTrace]
  split
  · simp
  · omega

theorem count_commentTrace (body : List Char) :
    (commentTrace body).count '\n' = body.count '\n' := by
  have hcount : (body.filter (· = '\n')).count '\n' = body.count '\n' :=
    List.count_filter (by simp)
  rw [commentTrace, ← hcount]
  split
  · next hnil => rw [hnil]; rfl
  · rfl

theorem Strips.length_le (h : Strips mode before rest out mode') : out.length ≤ before.length := by
  induction h with
  | here => exact Nat.le_refl _
  | @comment body before rest out mode' _ _ ih =>
    have htrace := length_commentTrace_le body
    simp only [List.length_append, List.length_cons]
    omega
  | char _ _ ih => exact Nat.succ_le_succ ih

/-- A text of which nothing is dropped shows no comment. -/
theorem Strips.not_shows (h : Strips mode before [] out mode')
    (hlength : out.length = before.length) : ¬Shows mode ['(', '*'] before := by
  generalize hrest : [] = rest at h
  induction h with
  | here => exact not_shows_nil
  | @comment body before rest out mode' _ h _ =>
    have htrace := length_commentTrace_le body
    have hle := h.length_le
    simp only [List.length_append, List.length_cons] at hlength
    omega
  | @char mode mode' c before rest out hno h ih =>
    subst hrest
    rw [shows_cons, not_or]
    refine ⟨?_, ih (Nat.succ_inj.mp hlength) rfl⟩
    rintro ⟨hmode, after, heq⟩
    obtain ⟨rfl, rfl⟩ := List.cons.inj heq
    exact hno hmode rfl rfl

end Strip

/-- What is left has all the newlines, so that no place changes its line. -/
theorem count_left (parts : List Part) :
    (textOf (parts.flatMap Part.left)).count '\n' = (textOf parts).count '\n' := by
  induction parts with
  | nil => rfl
  | cons part parts ih =>
    rw [List.flatMap_cons, textOf_append, textOf_cons, List.count_append, List.count_append, ih]
    cases part with
    | char c => rfl
    | literal body => simp [Part.left]
    | comment body => simp [Part.left, Part.text, count_commentTrace]

/-- Behind `before` the text has a character that stands in no comment.  What is left of the text
has it behind `out`. -/
inductive Survives (parts : List Part) (ending : Ending) :
    List Char → Char → List Char → Prop
  /-- A character of a part that is no comment. -/
  | part {front back : List Part} {part : Part} {pre post : List Char} {c : Char}
    (hparts : parts = front ++ part :: back) (hpart : ∀ body, part ≠ .comment body)
    (htext : part.text = pre ++ c :: post) :
    Survives parts ending (textOf front ++ pre) c (textOf (front.flatMap Part.left) ++ pre)
  /-- A character of what is open at the end. -/
  | ending {pre post : List Char} {c : Char} (htext : ending.text = pre ++ c :: post) :
    Survives parts ending (textOf parts ++ pre) c (textOf (parts.flatMap Part.left) ++ pre)

/-- The character stands behind the same newlines as before. -/
theorem Survives.exists_eq {parts : List Part} {ending : Ending} {before out : List Char} {c : Char}
    (h : Survives parts ending before c out) :
    (∃ rest, textOf parts ++ ending.text = before ++ c :: rest) ∧
      (∃ rest, textOf (parts.flatMap Part.left) ++ ending.text = out ++ c :: rest) ∧
      out.count '\n' = before.count '\n' := by
  cases h with
  | @part front back part pre post _ hparts hpart htext =>
    have hleft : part.left = [part] := by
      cases part with
      | comment body => exact absurd rfl (hpart body)
      | _ => rfl
    refine ⟨⟨post ++ (textOf back ++ ending.text), ?_⟩,
      ⟨post ++ (textOf (back.flatMap Part.left) ++ ending.text), ?_⟩, ?_⟩
    · simp [hparts, htext]
    · simp [hparts, hleft, htext]
    · rw [List.count_append, List.count_append, count_left]
  | @ending pre post _ htext =>
    refine ⟨⟨post, by rw [htext, List.append_assoc]⟩, ⟨post, by rw [htext, List.append_assoc]⟩, ?_⟩
    rw [List.count_append, List.count_append, count_left]

/-! ### Statements -/

namespace Reads

variable {text : List Char} {parts : List Part} {ending : Ending}

/-- A fault that a literal without end is to blame for names the quote that opens this literal, in
what is left. -/
theorem exists_literal (h : Reads text parts ending) {place : Position} {tail : List Char}
    (hfault : (statements text).fault = some (.openLiteral place tail)) :
    (∃ body, ending = .literal body) ∧
      place = Position.first.after (textOf (parts.flatMap Part.left)) := by
  cases ending with
  -- with an open comment nothing is left in which a literal could be open
  | comment body =>
    rw [statements, h.stripComments_eq_error] at hfault
    cases hfault
  -- without an open part all literals are closed
  | none =>
    have hstrips := h.strips
    have hclosed : ∀ body, Ending.none ≠ .comment body := fun _ heq => by cases heq
    rw [statements, h.stripComments_eq_ok hclosed, Ending.text, List.append_nil] at hfault
    dsimp only at hfault
    rw [statementsOfStripped, openQuote?_eq_none_iff.mpr hstrips.after_eq] at hfault
    cases hfault
  -- an open literal stands at the end of what is left, and it is the only one
  | literal body =>
    have hopens : OpensLiteral .plain
        (textOf (parts.flatMap Part.left) ++ (Ending.literal body).text)
        (textOf (parts.flatMap Part.left)) :=
      ⟨body, rfl, h.strips.after_eq, h.isOpen⟩
    have hclosed : ∀ inside, Ending.literal body ≠ .comment inside := fun _ heq => by cases heq
    rw [statements, h.stripComments_eq_ok hclosed] at hfault
    dsimp only at hfault
    rw [statementsOfStripped, openQuote?_eq_some_iff.mpr ⟨_, hopens, rfl⟩] at hfault
    cases hfault
    exact ⟨⟨body, rfl⟩, rfl⟩

end Reads

/-- **What dropping comments leaves, and when and where it fails.**  A text is made of characters,
literals and comments in one way.  Dropping its comments fails if and only if it ends in a comment
that nothing closes, and the place reported is, in the text split at newlines, that of the
parenthesis which opens this comment.  Otherwise what is left shows no comment, so that nothing is
dropped a second time.  It has the same literals in the same order, and every character that no
comment takes away has as many newlines before it as in the text.  Therefore a literal without end
is reported on the line of the text where it opens. -/
theorem stripComments_spec (text : List Char) :
    ∃ parts ending, Reads text parts ending ∧
      (∀ parts' ending', Reads text parts' ending' → parts' = parts ∧ ending' = ending) ∧
      ((∃ place, stripComments text = .error place) ↔
        ∃ body, ending = .comment body ∧ text = textOf parts ++ '(' :: '*' :: body ∧
          ¬['*', ')'] <:+: body) ∧
      (∀ place, stripComments text = .error place →
        (∃ earlier start more later,
          text.splitOn '\n' = earlier ++ (start ++ '(' :: '*' :: more) :: later ∧
          earlier.flatMap (· ++ ['\n']) ++ start = textOf parts ∧
          place = ⟨earlier.length + 1, start.length + 1⟩) ∧
        statements text = ⟨[], some (.openComment place)⟩ ∧
        (Fault.ofText (.openComment place)).cause.kind = .unterminatedComment ∧
        (Fault.ofText (.openComment place)).message =
          "Unterminated comment starting at " ++ place.render) ∧
      ∀ stripped, stripComments text = .ok stripped →
        ¬Shows .plain ['(', '*'] stripped ∧
        stripComments stripped = .ok stripped ∧
        (∃ parts', Reads stripped parts' ending ∧
          parts'.filterMap Part.literal? = parts.filterMap Part.literal?) ∧
        (∀ before c out, Survives parts ending before c out →
          (∃ rest, text = before ++ c :: rest) ∧ (∃ rest, stripped = out ++ c :: rest) ∧
            out.count '\n' = before.count '\n') ∧
        ∀ place tail, (statements text).fault = some (.openLiteral place tail) →
          ∃ body before out, ending = .literal body ∧ text = before ++ '"' :: body ∧
            Survives parts ending before '"' out ∧ place = Position.first.after out ∧
            place.line = (Position.first.after before).line ∧
            place.line = before.count '\n' + 1 := by
  -- the text has one reading, and all that is said is said of its parts
  obtain ⟨parts, ending, h⟩ := exists_reads text
  refine ⟨parts, ending, h, fun _ _ => h.unique, ?_, ?_, ?_⟩
  · constructor
    · -- dropping comments fails just for an ending that is an open comment
      rintro ⟨place, hplace⟩
      obtain ⟨⟨body, rfl⟩, -⟩ := h.stripComments_eq_error_iff.mp hplace
      exact ⟨body, rfl, h.text_eq, h.isOpen⟩
    · rintro ⟨body, hopen, -⟩
      exact ⟨_, h.stripComments_eq_error_iff.mpr ⟨⟨body, hopen⟩, rfl⟩⟩
  · intro place hplace
    obtain ⟨⟨body, rfl⟩, rfl⟩ := h.stripComments_eq_error_iff.mp hplace
    refine ⟨?_, by rw [statements, hplace], rfl, rfl⟩
    -- the place is looked up in the text split at newlines, behind the parts before the comment
    obtain ⟨earlier, start, hbefore, haddress, hsplit⟩ :=
      Position.exists_lines (textOf parts) (Ending.comment body).text
    obtain ⟨more, later, hbody⟩ := List.exists_cons_of_ne_nil (List.splitOn_ne_nil '\n' body)
    refine ⟨earlier, start, more, later, ?_, hbefore, haddress⟩
    rw [h.text_eq, hsplit, Ending.text, List.splitOn_cons_eq_if_modifyHead,
      List.splitOn_cons_eq_if_modifyHead, hbody]
    rfl
  · intro stripped hstripped
    -- without a failure what is left is the text of what is left of the parts
    obtain ⟨hclosed, rfl⟩ := h.eq_of_stripComments_eq_ok hstripped
    -- this reads in the same way, with blanks for the comments
    have hreads := h.left
    obtain ⟨mode, hstrips⟩ := hreads.exists_strips hclosed
    rw [left_left] at hstrips
    refine ⟨hstrips.not_shows rfl, hstrips.stripComments_eq, ⟨_, hreads, literals_left parts⟩, ?_,
      ?_⟩
    · -- what survives stands in both texts
      intro before c out hsurvives
      rw [h.text_eq]
      exact hsurvives.exists_eq
    · -- an open literal is the ending, and the newlines before it are those of the text
      intro place tail hfault
      obtain ⟨⟨body, rfl⟩, rfl⟩ := h.exists_literal hfault
      have hquote : Survives parts (.literal body) (textOf parts ++ []) '"' _ := .ending rfl
      rw [List.append_nil, List.append_nil] at hquote
      have hline : (Position.first.after (textOf (parts.flatMap Part.left))).line
          = (Position.first.after (textOf parts)).line := by
        rw [Position.line_after, Position.line_after, count_left]
      refine ⟨body, _, _, rfl, h.text_eq, hquote, rfl, hline, ?_⟩
      rw [hline, Position.line_after, Nat.add_comm]
      rfl

/-- A literal without end behind a comment of two lines, and a comment without end behind a literal
with the mark of one. -/
theorem stripComments_spec_lines :
    (∃ place tail, (statements ['(', '*', ')', '\n', '*', ')', '"', 'x']).fault
      = some (.openLiteral place tail) ∧ place.line = 2) ∧
    ∃ place, stripComments ['"', '(', '*', '"', '(', '*', ')'] = .error place := by
  constructor
  · have hstays : StaysOpen .literal ['x'] := closingQuote?_eq_none_iff.mp rfl
    have hcomment : (Part.comment [')', '\n']).Fits ['"', 'x'] :=
      cutComment?_eq_none_iff.mp rfl
    have hreads : Reads ['(', '*', ')', '\n', '*', ')', '"', 'x'] [.comment [')', '\n']]
        (.literal ['x']) := .part hcomment (@Reads.ending (.literal ['x']) hstays)
    have hfault : (statements ['(', '*', ')', '\n', '*', ')', '"', 'x']).fault
        = some (.openLiteral ⟨2, 1⟩ ['"', 'x']) := by
      cbv
    obtain ⟨parts, ending, -, hunique, -, -, hok⟩ :=
      stripComments_spec ['(', '*', ')', '\n', '*', ')', '"', 'x']
    obtain ⟨rfl, rfl⟩ := hunique _ _ hreads
    obtain ⟨-, -, -, -, hline⟩ := hok ['\n', '"', 'x'] (by cbv)
    obtain ⟨body, before, out, hbody, htext, -, -, -, hplace⟩ := hline _ _ hfault
    cases hbody
    have hbefore : ['(', '*', ')', '\n', '*', ')'] = before :=
      @List.append_cancel_right _ ['(', '*', ')', '\n', '*', ')'] _ _ htext
    exact ⟨_, _, hfault, by rw [hplace, ← hbefore]; rfl⟩
  · have hliteral : (Part.literal ['(', '*']).Fits ['(', '*', ')'] :=
      .char (by decide) (by decide) (.char (by decide) (by decide) .nil)
    have hopen : ¬['*', ')'] <:+: [')'] := cutComment?_eq_none_iff.mp rfl
    have hreads : Reads ['"', '(', '*', '"', '(', '*', ')'] [.literal ['(', '*']]
        (.comment [')']) := .part hliteral (@Reads.ending (.comment [')']) hopen)
    obtain ⟨parts, ending, -, hunique, herror, -⟩ :=
      stripComments_spec ['"', '(', '*', '"', '(', '*', ')']
    obtain ⟨rfl, rfl⟩ := hunique _ _ hreads
    exact herror.mpr ⟨[')'], rfl, rfl, hopen⟩

end Source

end Ebnf
