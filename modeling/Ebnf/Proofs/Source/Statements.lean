import Ebnf.Grammar.Fault
import Ebnf.Proofs.Source.Pieces

/-!
# Cutting into statements and joining

Without its comments a text is made of pieces with semicolons between them in one way only, if the
semicolons between the pieces are to be those outside literals.  Statements are the pieces that are
not blank.  Only the last piece can end in a literal, and then it is no statement but is reported,
with the place where the literal opens.  Texts without such semicolons and without comments are the
statements of what they are joined to.

## Main definitions

* `Source.Shows` — a mark stands outside literals.
* `Source.Cuts` — the pieces that semicolons outside literals cut a text into.

## Main results

* `Source.exists_cuts`, `Source.Cuts.cutPlain_eq` — there are such pieces, and only one list of
  them.
* `Source.Strips.of_not_shows` — a text that shows no comment is left as it is.
* `Source.statements_spec` — **what the statements of a text are, and of which texts given ones
  are the statements.**
-/

namespace Ebnf.Source

open Text (Position isBlankText strip)

/-! ### Marks outside literals -/

/-- The mark stands in the text outside literals, where reading begins in the mode. -/
def Shows (mode : Mode) (mark text : List Char) : Prop :=
  ∃ before after, text = before ++ (mark ++ after) ∧ mode.after before = .plain

section Shows

variable {mode : Mode} {mark text : List Char}

theorem shows_cons {c : Char} : Shows mode mark (c :: text) ↔
    (mode = .plain ∧ mark <+: c :: text) ∨ Shows (mode.next c) mark text := by
  constructor
  · rintro ⟨before, after, heq, hplain⟩
    cases before with
    | nil => exact Or.inl ⟨hplain, after, heq.symm⟩
    | cons d before =>
      cases heq
      exact Or.inr ⟨before, after, rfl, hplain⟩
  · rintro (⟨hplain, after, heq⟩ | ⟨before, after, rfl, hplain⟩)
    · exact ⟨[], after, heq.symm, hplain⟩
    · exact ⟨c :: before, after, rfl, hplain⟩

theorem shows_nil : Shows mode mark [] ↔ mode = .plain ∧ mark = [] := by
  constructor
  · rintro ⟨before, after, heq, hplain⟩
    obtain ⟨rfl, hrest⟩ := List.append_eq_nil_iff.mp heq.symm
    exact ⟨hplain, (List.append_eq_nil_iff.mp hrest).1⟩
  · rintro ⟨hplain, rfl⟩
    exact ⟨[], [], rfl, hplain⟩

theorem not_shows_nil {c : Char} : ¬Shows mode (c :: mark) [] :=
  fun h => List.cons_ne_nil c mark (shows_nil.mp h).2

instance decidableShows (mark : List Char) :
    ∀ (mode : Mode) (text : List Char), Decidable (Shows mode mark text)
  | _, [] => decidable_of_iff _ shows_nil.symm
  | mode, c :: text =>
    have := decidableShows mark (mode.next c) text
    decidable_of_iff _ shows_cons.symm

/-- Where a semicolon stands outside literals there is a first one. -/
theorem Shows.exists_first (h : Shows mode [';'] text) :
    ∃ before after, text = before ++ ';' :: after ∧ mode.after before = .plain ∧
      ¬Shows mode [';'] before := by
  induction text generalizing mode with
  | nil => exact absurd h not_shows_nil
  | cons c text ih =>
    by_cases hhere : mode = .plain ∧ c = ';'
    · obtain ⟨hplain, rfl⟩ := hhere
      exact ⟨[], text, rfl, hplain, not_shows_nil⟩
    · have hno : ∀ rest : List Char, ¬(mode = .plain ∧ [';'] <+: c :: rest) := by
        rintro rest ⟨hplain, hprefix⟩
        exact hhere ⟨hplain, (List.cons_prefix_cons.mp hprefix).1.symm⟩
      obtain ⟨before, after, rfl, hplain, hfirst⟩ := ih ((shows_cons.mp h).resolve_left (hno text))
      exact ⟨c :: before, after, rfl, hplain, fun hshows =>
        (shows_cons.mp hshows).elim (hno before) hfirst⟩

/-- Cutting goes over a text without semicolons outside literals. -/
theorem cutPlainFrom_of_not_shows (h : ¬Shows mode [';'] text) (rest : List Char) :
    cutPlainFrom ';' mode (text ++ rest) =
      (text ++ (cutPlainFrom ';' (mode.after text) rest).1,
        (cutPlainFrom ';' (mode.after text) rest).2) := by
  induction text generalizing mode with
  | nil => rfl
  | cons c text ih =>
    rw [shows_cons, not_or] at h
    obtain ⟨hhere, hrest⟩ := h
    have hno : ¬(mode = .plain ∧ c = ';' ∧ c ≠ '"') := by
      rintro ⟨hmode, rfl, -⟩
      exact hhere ⟨hmode, text, rfl⟩
    rw [List.cons_append, cutPlainFrom, if_neg hno, ih hrest, Mode.after_cons]
    rfl

theorem uncut_of_not_shows (hplain : Mode.after .plain text = .plain)
    (h : ¬Shows .plain [';'] text) : Uncut text := by
  refine ⟨hplain, fun rest => ?_⟩
  rw [cutPlainFrom_of_not_shows h, hplain]

/-- A text that shows no comment is left as it is when comments are dropped. -/
theorem Strips.of_not_shows (h : ¬Shows mode ['(', '*'] text) {rest : List Char}
    (hrest : rest.head? ≠ some '*') : Strips mode text rest text (mode.after text) := by
  induction text generalizing mode with
  | nil => exact .here mode rest
  | cons c text ih =>
    rw [shows_cons, not_or] at h
    obtain ⟨hhere, hlater⟩ := h
    refine .char (fun hmode hc hhead => ?_) (ih hlater)
    subst hc
    cases text with
    | nil => exact hrest hhead
    | cons d text =>
      obtain rfl : d = '*' := Option.some.inj hhead
      exact hhere ⟨hmode, text, rfl⟩

end Shows

/-! ### Pieces -/

/-- The text is `front` and `last` with semicolons between them.  Those semicolons stand outside
literals, since the pieces before them end there, and no other semicolon does. -/
structure Cuts (text : List Char) (front : List (List Char)) (last : List Char) : Prop where
  join : [';'].intercalate (front ++ [last]) = text
  ends : ∀ piece ∈ front, Mode.after .plain piece = .plain
  uncut : ∀ piece ∈ front ++ [last], ¬Shows .plain [';'] piece

theorem intercalate_concat {sep : Char} (front : List (List Char)) (last : List Char) :
    [sep].intercalate (front ++ [last]) = front.flatMap (· ++ [sep]) ++ last := by
  induction front with
  | nil => rw [List.nil_append, List.intercalate_singleton]; rfl
  | cons first others ih =>
    rw [List.cons_append, List.intercalate_cons_of_ne_nil (by simp), ih]
    simp

/-- There are such pieces: those between the semicolons that stand outside literals. -/
theorem exists_cuts (text : List Char) : ∃ front last, Cuts text front last := by
  -- induction on the length of the text, which is that of what follows the first semicolon and more
  induction hn : text.length using Nat.strongRecOn generalizing text with
  | ind n ih =>
    by_cases hshows : Shows .plain [';'] text
    · obtain ⟨before, after, rfl, hbefore, hfirst⟩ := hshows.exists_first
      obtain ⟨front, last, hjoin, hends, huncut⟩ := ih after.length
        (by rw [← hn, List.length_append, List.length_cons]; omega) after rfl
      refine ⟨before :: front, last, ?_, List.forall_mem_cons.mpr ⟨hbefore, hends⟩,
        List.forall_mem_cons.mpr ⟨hfirst, huncut⟩⟩
      rw [intercalate_concat] at hjoin ⊢
      rw [← hjoin]
      simp
    · refine ⟨[], text, List.intercalate_singleton, List.forall_mem_nil _, ?_⟩
      exact List.forall_mem_singleton.mpr hshows

namespace Cuts

variable {text last : List Char} {front : List (List Char)}

/-- Cutting finds them, so there is only one list of them. -/
theorem cutPlain_eq (h : Cuts text front last) : cutPlain ';' text = front ++ [last] := by
  obtain ⟨rfl, hends, huncut⟩ := h
  have hfront : ∀ piece ∈ front, Uncut piece := fun piece hpiece =>
    uncut_of_not_shows (hends piece hpiece) (huncut piece (List.mem_append_left _ hpiece))
  have hlast : cutPlain ';' last = [last] := by
    have hcut := cutPlainFrom_of_not_shows (huncut last (by simp)) []
    rw [List.append_nil, cutPlainFrom, List.append_nil] at hcut
    rw [cutPlain, hcut]
  rw [intercalate_concat, cutPlain_flatMap_append last hfront, hlast]

theorem unique (h : Cuts text front last) {front' : List (List Char)} {last' : List Char}
    (h' : Cuts text front' last') : front' = front ∧ last' = last := by
  have heq := h'.cutPlain_eq.symm.trans h.cutPlain_eq
  exact ⟨(List.append_inj' heq rfl).1, List.singleton_inj.mp (List.append_inj' heq rfl).2⟩

/-- What is before the last piece ends outside literals. -/
theorem after_front (h : Cuts text front last) :
    Mode.after .plain (front.flatMap (· ++ [';'])) = .plain := by
  have hends := h.ends
  clear h
  induction front with
  | nil => rfl
  | cons piece front ih =>
    obtain ⟨hpiece, hfront⟩ := List.forall_mem_cons.mp hends
    rw [List.flatMap_cons, Mode.after_append, Mode.after_append, hpiece]
    exact ih hfront

/-- The text ends as the last piece does. -/
theorem after_eq (h : Cuts text front last) : Mode.after .plain text = Mode.after .plain last := by
  rw [← h.join, intercalate_concat, Mode.after_append, h.after_front]

/-- A literal without end in the last piece is one of the text. -/
theorem opensLiteral (h : Cuts text front last) {part : List Char}
    (hpart : OpensLiteral .plain last part) :
    OpensLiteral .plain text (front.flatMap (· ++ [';']) ++ part) := by
  obtain ⟨after, rfl, hplain, hopen⟩ := hpart
  refine ⟨after, ?_, ?_, hopen⟩
  · rw [← h.join, intercalate_concat, List.append_assoc]
  · rw [Mode.after_append, h.after_front, hplain]

/-- The statements of a text whose last piece ends outside literals. -/
theorem statements_eq {stripped : List Char} (h : Cuts stripped front last)
    (hstrip : stripComments text = .ok stripped) (hplain : Mode.after .plain last = .plain) :
    statements text = ⟨(front ++ [last]).filter (!isBlankText ·), none⟩ := by
  rw [statements, hstrip]
  dsimp only
  rw [statementsOfStripped, openQuote?_eq_none_iff.mpr (h.after_eq.trans hplain), h.cutPlain_eq]

/-- The statements of a text whose last piece does not, and the fault after them. -/
theorem statements_eq_of_opensLiteral {stripped part : List Char} (h : Cuts stripped front last)
    (hstrip : stripComments text = .ok stripped) (hpart : OpensLiteral .plain last part) :
    statements text = ⟨front.filter (!isBlankText ·), some (.openLiteral
      (Position.first.after (front.flatMap (· ++ [';']) ++ part)) (strip last))⟩ := by
  rw [statements, hstrip]
  dsimp only
  rw [statementsOfStripped, openQuote?_eq_some_iff.mpr ⟨_, h.opensLiteral hpart, rfl⟩,
    h.cutPlain_eq]
  dsimp only
  rw [List.dropLast_concat, List.getLast?_concat, Option.getD_some]

end Cuts

/-! ### Joining -/

/-- The text can be a statement as it is: it is not blank, it ends outside literals, and it shows
neither a semicolon nor the mark of a comment. -/
structure StandsAlone (text : List Char) : Prop where
  notBlank : isBlankText text = false
  ends : Mode.after .plain text = .plain
  uncut : ¬Shows .plain [';'] text
  uncommented : ¬Shows .plain ['(', '*'] text

section Join

variable {front : List (List Char)} {last : List Char}

/-- There is no comment in what they are joined to. -/
theorem strips_join (hfront : ∀ piece ∈ front, StandsAlone piece)
    (hlast : ¬Shows .plain ['(', '*'] last) :
    Strips .plain (front.flatMap (· ++ [';']) ++ last) [] (front.flatMap (· ++ [';']) ++ last)
      (Mode.after .plain last) := by
  induction front with
  | nil => exact .of_not_shows hlast nofun
  | cons piece front ih =>
    obtain ⟨hpiece, hfront⟩ := List.forall_mem_cons.mp hfront
    have hsemicolon : Strips .plain (';' :: (front.flatMap (· ++ [';']) ++ last)) []
        (';' :: (front.flatMap (· ++ [';']) ++ last)) (Mode.after .plain last) :=
      .char (fun _ hc => absurd hc (by decide)) (ih hfront)
    have hhead : (';' :: (front.flatMap (· ++ [';']) ++ last) ++ []).head? ≠ some '*' := by simp
    have hstrips := Strips.of_not_shows hpiece.uncommented hhead
    rw [hpiece.ends] at hstrips
    rw [List.flatMap_cons, List.append_assoc, List.append_assoc, List.singleton_append]
    exact hstrips.trans hsemicolon

/-- Texts that can be statements, and a last one that may be blank. -/
theorem statements_join (hfront : ∀ piece ∈ front, StandsAlone piece)
    (hends : Mode.after .plain last = .plain) (huncut : ¬Shows .plain [';'] last)
    (huncommented : ¬Shows .plain ['(', '*'] last) :
    statements ([';'].intercalate (front ++ [last])) =
      ⟨front ++ [last].filter (!isBlankText ·), none⟩ := by
  have hcuts : Cuts ([';'].intercalate (front ++ [last])) front last := by
    refine ⟨rfl, fun piece hpiece => (hfront piece hpiece).ends, fun piece hpiece => ?_⟩
    rcases List.mem_append.mp hpiece with hpiece | hpiece
    · exact (hfront piece hpiece).uncut
    · rwa [List.mem_singleton.mp hpiece]
  have hstrip := (strips_join hfront huncommented).stripComments_eq
  rw [← intercalate_concat] at hstrip
  rw [hcuts.statements_eq hstrip hends, List.filter_append, List.filter_eq_self.mpr]
  intro piece hpiece
  rw [(hfront piece hpiece).notBlank, Bool.not_false]

end Join

/-- **What the statements of a text are, and of which texts given ones are the statements.**  A text
whose comments are closed is, without them, made of pieces in one way.  Its statements are those
that are not blank, in order.  If the last piece ends in a literal it is left out, and after the
others the place of the quote that opens this literal is reported; otherwise nothing is.  Texts that
can be statements are those of what they are joined to, whether a semicolon follows or not. -/
theorem statements_spec :
    (∀ text stripped, stripComments text = .ok stripped →
      ∃ front last, Cuts stripped front last ∧
        (∀ front' last', Cuts stripped front' last' → front' = front ∧ last' = last) ∧
        (Mode.after .plain last = .plain →
          statements text = ⟨(front ++ [last]).filter (!isBlankText ·), none⟩) ∧
        (Mode.after .plain last ≠ .plain →
          ∃ part place, OpensLiteral .plain last part ∧
            OpensLiteral .plain stripped (front.flatMap (· ++ [';']) ++ part) ∧
            place = Position.first.after (front.flatMap (· ++ [';']) ++ part) ∧
            (Fault.ofText (.openLiteral place (strip last))).cause.kind = .unterminatedLiteral ∧
            statements text =
              ⟨front.filter (!isBlankText ·), some (.openLiteral place (strip last))⟩)) ∧
    ∀ pieces, (∀ piece ∈ pieces, StandsAlone piece) →
      statements ([';'].intercalate pieces) = ⟨pieces, none⟩ ∧
        statements ([';'].intercalate pieces ++ [';']) = ⟨pieces, none⟩ := by
  refine ⟨fun text stripped hstrip => ?_, fun pieces hpieces => ?_⟩
  · obtain ⟨front, last, hcuts⟩ := exists_cuts stripped
    -- the place is that of the last quote of the text, which opens in the last piece
    refine ⟨front, last, hcuts, fun _ _ => hcuts.unique, hcuts.statements_eq hstrip,
      fun hopen => ?_⟩
    obtain ⟨place, hplace⟩ := Option.ne_none_iff_exists'.mp (mt openQuote?_eq_none_iff.mp hopen)
    obtain ⟨part, hpart, -⟩ := openQuote?_eq_some_iff.mp hplace
    exact ⟨part, _, hpart, hcuts.opensLiteral hpart, rfl, rfl,
      hcuts.statements_eq_of_opensLiteral hstrip hpart⟩
  · rcases List.eq_nil_or_concat' pieces with rfl | ⟨front, last, rfl⟩
    · exact ⟨by cbv, by cbv⟩
    obtain ⟨hfront, hlast⟩ := List.forall_mem_append.mp hpieces
    have hlast := hlast last (List.mem_singleton.mpr rfl)
    constructor
    · -- without one, the last piece is a statement like the others
      rw [statements_join hfront hlast.ends hlast.uncut hlast.uncommented,
        List.filter_cons_of_pos (by rw [hlast.notBlank, Bool.not_false]), List.filter_nil]
    · -- with a semicolon behind them the last piece is empty
      have hjoin : [';'].intercalate (front ++ [last]) ++ [';']
          = [';'].intercalate ((front ++ [last]) ++ [[]]) := by
        rw [intercalate_concat, intercalate_concat, List.flatMap_append]
        simp
      rw [hjoin, statements_join hpieces rfl not_shows_nil not_shows_nil]
      exact congrArg (Statements.mk · none) (List.append_nil _)

/-- A comment, a blank piece and a literal without end, and a semicolon in a literal. -/
theorem statements_spec_quote :
    (∃ place, statements ['a', '(', '*', '*', ')', ';', ';', '"', ';']
      = ⟨[['a', ' ']], some (.openLiteral place ['"', ';'])⟩) ∧
    statements ['a', ';', '"', ';', '"'] = ⟨[['a'], ['"', ';', '"']], none⟩ := by
  obtain ⟨hcut, hjoin⟩ := statements_spec
  constructor
  · have hstrip : stripComments ['a', '(', '*', '*', ')', ';', ';', '"', ';']
        = .ok ['a', ' ', ';', ';', '"', ';'] := by
      cbv
    have hcuts : Cuts ['a', ' ', ';', ';', '"', ';'] [['a', ' '], []] ['"', ';'] :=
      ⟨rfl, by decide, by decide⟩
    obtain ⟨front, last, -, hunique, -, hopen⟩ := hcut _ _ hstrip
    obtain ⟨rfl, rfl⟩ := hunique _ _ hcuts
    obtain ⟨_, place, -, -, -, -, hstatements⟩ := hopen (by decide)
    exact ⟨place, hstatements⟩
  · refine (hjoin [['a'], ['"', ';', '"']] ?_).1
    simp only [List.forall_mem_cons]
    exact ⟨⟨rfl, rfl, by decide, by decide⟩, ⟨rfl, rfl, by decide, by decide⟩,
      List.forall_mem_nil _⟩

end Ebnf.Source
