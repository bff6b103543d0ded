import Ebnf.Proofs.Source.Layout

/-!
# Texts that can be cut

A text is cut into statements unless it ends within a comment or within a literal, and the report
names the place where that one opens.  Comments are dropped first, so a comment without end is
reported even if a literal before it has none that closes; the place of a literal is counted in
what is left.

## Main definitions

* `Source.OpensComment`, `Source.OpensLiteral` — a comment and a literal without end.
* `Source.CutInto` — the statements of a text.
* `Source.BreaksOff` — what is open at the end of a text.

## Main results

* `Source.stripComments_eq_ok_iff`, `Source.stripComments_eq_error_iff` — dropping comments.
* `Source.openQuote?_eq_some_iff` — where the last literal opens.
* `Source.readStatements_eq_ok_iff`, `Source.readStatements_eq_error_iff` — **which texts are cut,
  and into what.**
-/

namespace Ebnf.Source

open Text (Position isBlankText strip)

/-! ### Comments -/

theorem cutComment?_eq_none_iff {text : List Char} :
    cutComment? text = none ↔ ¬['*', ')'] <:+: text := by
  fun_induction cutComment? text with
  | case1 => simp
  | case2 rest =>
    refine iff_of_false (Option.some_ne_none _) (not_not_intro ?_)
    exact (List.prefix_append ['*', ')'] rest).isInfix
  | case3 c rest hno ih =>
    rw [Option.map_eq_none_iff, ih, List.infix_cons_iff, not_or, iff_and_self]
    rintro - ⟨tail, heq⟩
    obtain ⟨rfl, rfl⟩ := List.cons.inj heq
    exact hno tail rfl rfl

/-- A comment without end opens after `before`: up to there comments are dropped, and outside
literals the mark follows with no other to close it. -/
def OpensComment (mode : Mode) (text before : List Char) : Prop :=
  ∃ after out, text = before ++ '(' :: '*' :: after ∧
    Strips mode before ('(' :: '*' :: after) out .plain ∧ ¬['*', ')'] <:+: after

/-- Dropping comments gives what is left of the text, or the place of a comment without end. -/
theorem strips_or_opensComment (mode : Mode) (place : Position) (text : List Char) :
    (∃ out mode', Strips mode text [] out mode') ∨
      ∃ before, OpensComment mode text before := by
  fun_induction stripCommentsFrom mode place text with
  | case1 => exact Or.inl ⟨[], _, .here _ []⟩
  | case2 place rest hnone =>
    -- a comment opens here and nothing closes it
    exact Or.inr ⟨[], rest, [], rfl, .here _ _, cutComment?_eq_none_iff.mp hnone⟩
  -- a closed comment is left out, and dropping goes on behind it
  | case3 place rest body tail hcut ih =>
    obtain ⟨rfl, hbody⟩ := cutComment?_eq_some_iff.mp hcut
    rcases ih with ⟨out, mode', h⟩ | ⟨before, after, out, rfl, h, hopen⟩
    · exact Or.inl ⟨_, mode', .comment hbody h⟩
    · refine Or.inr ⟨'(' :: '*' :: (body ++ '*' :: ')' :: before), after, _, ?_, .comment hbody h,
        hopen⟩
      simp
  | case4 place mode c rest hno ih =>
    -- the character opens no comment, in the text read so far as in the whole text
    have hno' : ∀ text : List Char, mode = .plain → c = '(' → text = rest →
        text.head? ≠ some '*' := by
      rintro text hmode hc rfl hhead
      obtain ⟨tail, rfl⟩ := List.head?_eq_some_iff.mp hhead
      exact hno tail hmode hc rfl
    rcases ih with ⟨out, mode', h⟩ | ⟨before, after, out, rfl, h, hopen⟩
    · exact Or.inl ⟨c :: out, mode', .char (fun hm hc => hno' _ hm hc (List.append_nil _)) h⟩
    · exact Or.inr ⟨c :: before, after, c :: out, rfl, .char (fun hm hc => hno' _ hm hc rfl) h,
        hopen⟩

theorem Strips.stripComments_eq {text out : List Char} {mode : Mode}
    (h : Strips .plain text [] out mode) : stripComments text = .ok out := by
  have heq := h.stripCommentsFrom_eq .first
  rw [List.append_nil] at heq
  rw [stripComments, heq, stripCommentsFrom]
  exact congrArg Except.ok (List.append_nil out)

theorem OpensComment.stripComments_eq {text before : List Char}
    (h : OpensComment .plain text before) :
    stripComments text = .error (Position.first.after before) := by
  obtain ⟨after, out, rfl, hbefore, hopen⟩ := h
  rw [stripComments, hbefore.stripCommentsFrom_eq,
    stripCommentsFrom_open (cutComment?_eq_none_iff.mpr hopen)]
  rfl

/-- The text without its comments is what they leave, told without places and without recursion on
the text. -/
theorem stripComments_eq_ok_iff {text out : List Char} :
    stripComments text = .ok out ↔ ∃ mode, Strips .plain text [] out mode := by
  constructor
  · intro h
    rcases strips_or_opensComment .plain .first text with ⟨out', mode, hstrips⟩ | ⟨before, hopen⟩
    · rw [hstrips.stripComments_eq] at h
      cases h
      exact ⟨mode, hstrips⟩
    · rw [hopen.stripComments_eq] at h
      cases h
  · rintro ⟨mode, hstrips⟩
    exact hstrips.stripComments_eq

/-- The place of the comment without end is that behind the text before it, counted in lines and
columns. -/
theorem stripComments_eq_error_iff {text : List Char} {place : Position} :
    stripComments text = .error place ↔
      ∃ before, OpensComment .plain text before ∧ place = Position.first.after before := by
  constructor
  · intro h
    rcases strips_or_opensComment .plain .first text with ⟨out', mode, hstrips⟩ | ⟨before, hopen⟩
    · rw [hstrips.stripComments_eq] at h
      cases h
    · rw [hopen.stripComments_eq] at h
      cases h
      exact ⟨before, hopen, rfl⟩
  · rintro ⟨before, hopen, rfl⟩
    exact hopen.stripComments_eq

/-! ### Literals -/

/-- Reading the text in the mode never comes out of the literal. -/
def StaysOpen (mode : Mode) (text : List Char) : Prop :=
  ∀ part, part <+: text → mode.after part ≠ .plain

theorem not_staysOpen_plain (text : List Char) : ¬StaysOpen .plain text :=
  fun h => h [] List.nil_prefix rfl

theorem staysOpen_cons {mode : Mode} {c : Char} {text : List Char} (hmode : mode ≠ .plain) :
    StaysOpen mode (c :: text) ↔ StaysOpen (mode.next c) text := by
  constructor
  · intro h part hpart
    exact h (c :: part) ((List.prefix_cons_inj c).mpr hpart)
  · intro h part hpart
    cases part with
    | nil => exact hmode
    | cons d part =>
      obtain ⟨rfl, hrest⟩ := List.cons_prefix_cons.mp hpart
      exact h part hrest

/-- A literal without end opens after `before`: outside literals a quote follows, and behind it the
text stays within the literal. -/
def OpensLiteral (mode : Mode) (text before : List Char) : Prop :=
  ∃ after, text = before ++ '"' :: after ∧ mode.after before = .plain ∧ StaysOpen .literal after

/-- A character that opens no literal may be read first. -/
theorem exists_opensLiteral_cons {mode : Mode} {c : Char} {text : List Char} {quote : Position}
    (hno : mode = .plain → c ≠ '"') (place : Position) :
    (∃ before, OpensLiteral mode (c :: text) before ∧ quote = place.after before) ↔
      ∃ before, OpensLiteral (mode.next c) text before ∧
        quote = (place.advance c).after before := by
  constructor
  · rintro ⟨before, ⟨after, heq, hbefore, hopen⟩, rfl⟩
    cases before with
    | nil =>
      cases heq
      exact absurd rfl (hno hbefore)
    | cons d before =>
      cases heq
      exact ⟨before, ⟨after, rfl, hbefore, hopen⟩, rfl⟩
  · rintro ⟨before, ⟨after, rfl, hbefore, hopen⟩, rfl⟩
    exact ⟨c :: before, ⟨after, rfl, hbefore, hopen⟩, rfl⟩

/-- A literal that stays open from a quote on is the first that can be meant, and any other is one
that opens later. -/
theorem exists_opensLiteral_quote {text : List Char} {quote : Position} (place : Position) :
    (∃ before, OpensLiteral .plain ('"' :: text) before ∧ quote = place.after before) ↔
      (StaysOpen .literal text ∧ quote = place) ∨
        ∃ before, OpensLiteral .literal text before ∧
          quote = (place.advance '"').after before := by
  constructor
  · rintro ⟨before, ⟨after, heq, hbefore, hopen⟩, rfl⟩
    cases before with
    | nil =>
      cases heq
      exact Or.inl ⟨hopen, rfl⟩
    | cons d before =>
      cases heq
      exact Or.inr ⟨before, ⟨after, rfl, hbefore, hopen⟩, rfl⟩
  · rintro (⟨hopen, rfl⟩ | ⟨before, ⟨after, rfl, hbefore, hopen⟩, rfl⟩)
    · exact ⟨[], ⟨text, rfl, rfl, hopen⟩, rfl⟩
    · exact ⟨'"' :: before, ⟨after, rfl, hbefore, hopen⟩, rfl⟩

/-- The quote is the one that was open from the start, or one that opens later on. -/
theorem openQuoteFrom?_eq_some_iff {quote' : Position} :
    ∀ {text : List Char} {quote place : Position} {mode : Mode},
    openQuoteFrom? quote mode place text = some quote' ↔
      (StaysOpen mode text ∧ quote' = quote) ∨
        ∃ before, OpensLiteral mode text before ∧ quote' = place.after before := by
  intro text
  induction text with
  | nil =>
    intro quote place mode
    have hno : ¬∃ before, OpensLiteral mode [] before ∧ quote' = place.after before := by
      rintro ⟨before, ⟨after, heq, -⟩, -⟩
      cases before <;> cases heq
    -- at the end, the quote is the one that was open from the start
    rw [openQuoteFrom?, or_iff_left hno]
    by_cases hmode : mode = .plain
    · subst hmode
      simp [not_staysOpen_plain]
    · have hopen : StaysOpen mode [] := by
        intro part hpart
        rw [List.prefix_nil.mp hpart]
        exact hmode
      simp [hmode, hopen, eq_comm]
  | cons c text ih =>
    intro quote place mode
    rw [openQuoteFrom?, ih]
    by_cases hmode : mode = .plain
    · -- outside a literal no quote is open, so it opens at this character or later
      subst hmode
      have hleft : ¬(StaysOpen .plain (c :: text) ∧ quote' = quote) :=
        fun h => not_staysOpen_plain _ h.1
      rw [or_iff_right hleft]
      by_cases hc : c = '"'
      · subst hc
        rw [if_pos ⟨rfl, rfl⟩, Mode.next_plain_quote]
        exact (exists_opensLiteral_quote place).symm
      · rw [if_neg (fun h => hc h.2), Mode.next_plain hc,
          or_iff_right fun h => not_staysOpen_plain _ h.1,
          exists_opensLiteral_cons (fun _ => hc) place, Mode.next_plain hc]
    · -- in a literal the next quote to open is looked for in the rest
      rw [if_neg (fun h => hmode h.1), staysOpen_cons hmode]
      exact or_congr_right (exists_opensLiteral_cons (fun h => absurd h hmode) place).symm

/-- The place found is that behind the text before the last quote that opens a literal, if this has
no end. -/
theorem openQuote?_eq_some_iff {text : List Char} {place : Position} :
    openQuote? text = some place ↔
      ∃ before, OpensLiteral .plain text before ∧ place = Position.first.after before := by
  rw [openQuote?, openQuoteFrom?_eq_some_iff]
  exact or_iff_right fun h => not_staysOpen_plain _ h.1

/-! ### Statements -/

/-- The text is cut into statements: its comments and literals are closed, and what is left of it
without comments is cut at semicolons, where blank pieces do not count. -/
def CutInto (text : List Char) (raws : List (List Char)) : Prop :=
  ∃ out, Strips .plain text [] out .plain ∧ raws = (cutPlain ';' out).filter (!isBlankText ·)

/-- What is open at the end of a text.  A literal is looked for only if no comment is open. -/
inductive BreaksOff (text : List Char) : TextFault → Prop
  /-- A comment is open. -/
  | comment {before : List Char} (h : OpensComment .plain text before) :
    BreaksOff text (.openComment (Position.first.after before))
  /-- A literal is open in what is left without comments; the statement around it is reported. -/
  | literal {out before : List Char} {mode : Mode} (hout : Strips .plain text [] out mode)
    (h : OpensLiteral .plain out before) :
    BreaksOff text (.openLiteral (Position.first.after before)
      (strip ((cutPlain ';' out).getLast?.getD [])))

theorem CutInto.readStatements_eq {text : List Char} {raws : List (List Char)}
    (h : CutInto text raws) : readStatements text = .ok raws := by
  obtain ⟨out, hout, rfl⟩ := h
  refine readStatements_of_complete hout.stripComments_eq ?_
  rw [statementsOfStripped, openQuote?_eq_none_iff.mpr hout.after_eq]

theorem BreaksOff.readStatements_eq {text : List Char} {fault : TextFault}
    (h : BreaksOff text fault) : readStatements text = .error fault := by
  cases h with
  | comment h => exact readStatements_of_error h.stripComments_eq
  | literal hout h =>
    refine readStatements_of_fault hout.stripComments_eq ?_
    rw [statementsOfStripped, openQuote?_eq_some_iff.mpr ⟨_, h, rfl⟩]

/-- A text is cut into statements, or it breaks off. -/
theorem cutInto_or_breaksOff (text : List Char) :
    (∃ raws, CutInto text raws) ∨ ∃ fault, BreaksOff text fault := by
  rcases strips_or_opensComment .plain .first text with ⟨out, mode, hout⟩ | ⟨before, hopen⟩
  · rcases hquote : openQuote? out with _ | place
    · have hmode : mode = .plain := by
        rw [← hout.after_eq]
        exact openQuote?_eq_none_iff.mp hquote
      subst hmode
      exact Or.inl ⟨_, out, hout, rfl⟩
    · obtain ⟨before, hopen, -⟩ := openQuote?_eq_some_iff.mp hquote
      exact Or.inr ⟨_, .literal hout hopen⟩
  · exact Or.inr ⟨_, .comment hopen⟩

/-- No piece of a text ends in a literal if the text does not. -/
theorem after_of_mem_cutPlainFrom (sep : Char) {text : List Char} {mode : Mode}
    (h : mode.after text = .plain) :
    mode.after (cutPlainFrom sep mode text).1 = .plain ∧
      ∀ piece ∈ (cutPlainFrom sep mode text).2, Mode.after .plain piece = .plain := by
  induction text generalizing mode with
  | nil => exact ⟨h, nofun⟩
  | cons c text ih =>
    rw [Mode.after_cons] at h
    rw [cutPlainFrom]
    split
    · next hcut =>
      obtain ⟨rfl, -, hquote⟩ := hcut
      rw [Mode.next_plain hquote] at h
      obtain ⟨hfirst, hothers⟩ := ih h
      exact ⟨rfl, List.forall_mem_cons.mpr ⟨hfirst, hothers⟩⟩
    · obtain ⟨hfirst, hothers⟩ := ih h
      exact ⟨hfirst, hothers⟩

/-- No statement ends in a literal, since a semicolon in one separates nothing. -/
theorem CutInto.after_eq {text : List Char} {raws : List (List Char)} (h : CutInto text raws) :
    ∀ raw ∈ raws, Mode.after .plain raw = .plain := by
  obtain ⟨out, hout, rfl⟩ := h
  obtain ⟨hfirst, hothers⟩ := after_of_mem_cutPlainFrom ';' hout.after_eq
  intro raw hraw
  rcases List.mem_cons.mp (List.mem_filter.mp hraw).1 with rfl | hmem
  · exact hfirst
  · exact hothers raw hmem

/-- **Which texts are cut into statements, and into which.** What is left without comments is the
pieces with semicolons between them, and those that are not blank are the statements. -/
theorem readStatements_eq_ok_iff {text : List Char} {raws : List (List Char)} :
    readStatements text = .ok raws ↔ CutInto text raws := by
  refine ⟨fun h => ?_, CutInto.readStatements_eq⟩
  rcases cutInto_or_breaksOff text with ⟨raws', hcut⟩ | ⟨fault, hbreaks⟩
  · rw [hcut.readStatements_eq] at h
    cases h
    exact hcut
  · rw [hbreaks.readStatements_eq] at h
    cases h

/-- **What is reported of texts that are not.** It is a comment without end, or else a literal
without end in what comments leave. -/
theorem readStatements_eq_error_iff {text : List Char} {fault : TextFault} :
    readStatements text = .error fault ↔ BreaksOff text fault := by
  refine ⟨fun h => ?_, BreaksOff.readStatements_eq⟩
  rcases cutInto_or_breaksOff text with ⟨raws', hcut⟩ | ⟨fault', hbreaks⟩
  · rw [hcut.readStatements_eq] at h
    cases h
  · rw [hbreaks.readStatements_eq] at h
    cases h
    exact hbreaks

end Ebnf.Source
