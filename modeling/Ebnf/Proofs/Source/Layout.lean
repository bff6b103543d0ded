import Ebnf.Source.Layout
import Ebnf.Source.Statement

/-!
# Layout outside literals

Comments are dropped first, then statements are cut, and then blanks are dropped, each in a reading
of its own.  All three agree on what stands in literals, so a text may be cut before or after its
blanks are dropped, and what is inserted outside literals and comments, a comment or blanks, leaves
nothing behind in the statements.

## Main definitions

* `Source.IsLayout` — blanks, or one comment.
* `Source.Strips` — how dropping comments comes to a place of a text.

## Main results

* `Source.cutPlain_dropBlanks` — cutting and dropping blanks may change places.
* `Source.cutComment?_eq_some_iff` — a comment ends at its first closing mark.
* `Source.readStatements_insert` — **layout that is inserted leaves the statements as they are.**
-/

namespace Ebnf.Source

open Text (Position isBlank isBlankText)

/-! ### Blanks -/

theorem next_plain_of_isBlank {c : Char} (h : isBlank c = true) : Mode.next .plain c = .plain := by
  refine Mode.next_plain ?_
  rintro rfl
  revert h
  decide

/-- Blanks do not lead into a literal. -/
theorem after_plain_of_forall_isBlank : ∀ {blanks : List Char}, (∀ c ∈ blanks, isBlank c = true) →
    Mode.after .plain blanks = .plain := by
  intro blanks
  induction blanks with
  | nil => exact fun _ => rfl
  | cons c blanks ih =>
    intro h
    rw [Mode.after_cons, next_plain_of_isBlank (h c List.mem_cons_self)]
    exact ih fun d hd => h d (List.mem_cons_of_mem _ hd)

theorem dropBlanksFrom_of_isBlank {c : Char} (h : isBlank c = true) (rest : List Char) :
    dropBlanksFrom .plain (c :: rest) = dropBlanksFrom .plain rest := by
  rw [dropBlanksFrom_cons, if_pos ⟨rfl, h⟩]

theorem dropBlanksFrom_of_not {mode : Mode} {c : Char} (h : ¬(mode = .plain ∧ isBlank c = true))
    (rest : List Char) :
    dropBlanksFrom mode (c :: rest) = c :: dropBlanksFrom (mode.next c) rest := by
  rw [dropBlanksFrom_cons, if_neg h]

theorem dropBlanksFrom_append (rest : List Char) : ∀ (text : List Char) (mode : Mode),
    dropBlanksFrom mode (text ++ rest) =
      dropBlanksFrom mode text ++ dropBlanksFrom (mode.after text) rest := by
  intro text
  induction text with
  | nil => intro mode; rw [dropBlanksFrom_nil]; rfl
  | cons c text ih =>
    intro mode
    rw [List.cons_append, Mode.after_cons]
    by_cases h : mode = .plain ∧ isBlank c = true
    · obtain ⟨rfl, hblank⟩ := h
      rw [dropBlanksFrom_of_isBlank hblank, dropBlanksFrom_of_isBlank hblank,
        next_plain_of_isBlank hblank, ih]
    · rw [dropBlanksFrom_of_not h, dropBlanksFrom_of_not h, ih, List.cons_append]

theorem dropBlanksFrom_dropBlanksFrom : ∀ (text : List Char) (mode : Mode),
    dropBlanksFrom mode (dropBlanksFrom mode text) = dropBlanksFrom mode text := by
  intro text
  induction text with
  | nil => intro mode; rw [dropBlanksFrom_nil, dropBlanksFrom_nil]
  | cons c text ih =>
    intro mode
    by_cases h : mode = .plain ∧ isBlank c = true
    · obtain ⟨rfl, hblank⟩ := h
      rw [dropBlanksFrom_of_isBlank hblank, ih]
    · rw [dropBlanksFrom_of_not h, dropBlanksFrom_of_not h, ih]

theorem length_dropBlanksFrom_le : ∀ (text : List Char) (mode : Mode),
    (dropBlanksFrom mode text).length ≤ text.length := by
  intro text
  induction text with
  | nil => intro mode; simp
  | cons c text ih =>
    intro mode
    rw [dropBlanksFrom_cons]
    split
    · have := ih mode
      simp only [List.length_cons]
      omega
    · have := ih (mode.next c)
      simp only [List.length_cons]
      omega

/-- A text without blanks has none in any part of it. -/
theorem dropBlanks_middle {before piece after : List Char}
    (h : dropBlanks (before ++ (piece ++ after)) = before ++ (piece ++ after))
    (hbefore : Mode.after .plain before = .plain) : dropBlanks piece = piece := by
  rw [dropBlanks, dropBlanksFrom_append, dropBlanksFrom_append, hbefore] at h
  -- nothing gets longer, so no part may get shorter
  have hlength := congrArg List.length h
  have hfirst := length_dropBlanksFrom_le before .plain
  have hsecond := length_dropBlanksFrom_le piece .plain
  have hthird := length_dropBlanksFrom_le after (Mode.after .plain piece)
  simp only [List.length_append] at hlength
  obtain ⟨-, hrest⟩ := List.append_inj h (by omega)
  exact (List.append_inj hrest (by omega)).1

/-- There is nothing to drop a second time. -/
theorem dropBlanks_dropBlanks (text : List Char) : dropBlanks (dropBlanks text) = dropBlanks text :=
  dropBlanksFrom_dropBlanksFrom text .plain

theorem dropBlanks_of_forall_isBlank {blanks : List Char} (h : ∀ c ∈ blanks, isBlank c = true) :
    dropBlanks blanks = [] := by
  rw [dropBlanks]
  induction blanks with
  | nil => rfl
  | cons c blanks ih =>
    rw [dropBlanksFrom_of_isBlank (h c List.mem_cons_self)]
    exact ih fun d hd => h d (List.mem_cons_of_mem _ hd)

/-- Of characters that are neither quotes nor blanks none is dropped. -/
theorem dropBlanks_of_forall {piece : List Char}
    (h : ∀ c ∈ piece, c ≠ '"' ∧ isBlank c = false) :
    Mode.after .plain piece = .plain ∧ dropBlanks piece = piece := by
  induction piece with
  | nil => exact ⟨rfl, rfl⟩
  | cons c piece ih =>
    obtain ⟨hquote, hblank⟩ := h c List.mem_cons_self
    obtain ⟨hmode, hdrop⟩ := ih fun d hd => h d (List.mem_cons_of_mem _ hd)
    have hkeep : ¬(Mode.plain = .plain ∧ isBlank c = true) := by simp [hblank]
    rw [dropBlanks] at hdrop
    rw [Mode.after_cons, Mode.next_plain hquote, dropBlanks, dropBlanksFrom_of_not hkeep,
      Mode.next_plain hquote, hdrop]
    exact ⟨hmode, rfl⟩

/-- Blanks that stand outside literals are dropped, so the text is the same as without them. -/
theorem dropBlanks_insert {out blanks : List Char} (hout : Mode.after .plain out = .plain)
    (hblanks : ∀ c ∈ blanks, isBlank c = true) (rest : List Char) :
    dropBlanks (out ++ (blanks ++ rest)) = dropBlanks (out ++ rest) := by
  have hnil : dropBlanksFrom .plain blanks = [] := dropBlanks_of_forall_isBlank hblanks
  rw [dropBlanks, dropBlanks, dropBlanksFrom_append _ out, dropBlanksFrom_append _ out, hout,
    dropBlanksFrom_append _ blanks, after_plain_of_forall_isBlank hblanks, hnil, List.nil_append]

/-- Dropping blanks does not change where literals begin and end. -/
theorem after_dropBlanksFrom : ∀ (text : List Char) (mode : Mode),
    mode.after (dropBlanksFrom mode text) = mode.after text := by
  intro text
  induction text with
  | nil => intro mode; rw [dropBlanksFrom_nil]
  | cons c text ih =>
    intro mode
    by_cases h : mode = .plain ∧ isBlank c = true
    · obtain ⟨rfl, hblank⟩ := h
      rw [dropBlanksFrom_of_isBlank hblank, Mode.after_cons, next_plain_of_isBlank hblank, ih]
    · rw [dropBlanksFrom_of_not h, Mode.after_cons, Mode.after_cons, ih]

theorem isBlankText_iff {text : List Char} : isBlankText text = true ↔ dropBlanks text = [] := by
  rw [dropBlanks]
  induction text with
  | nil => exact iff_of_true rfl rfl
  | cons c text ih =>
    rw [isBlankText, List.all_cons, ← isBlankText]
    by_cases h : isBlank c = true
    · rw [h, Bool.true_and, dropBlanksFrom_of_isBlank h, ih]
    · rw [dropBlanksFrom_of_not (fun hc => h hc.2)]
      simp [h]

/-! ### Statements -/

section Cut

variable {sep : Char} (hsep : isBlank sep = false)

include hsep

theorem cutPlainFrom_dropBlanksFrom : ∀ (text : List Char) (mode : Mode),
    cutPlainFrom sep mode (dropBlanksFrom mode text) =
      (dropBlanksFrom mode (cutPlainFrom sep mode text).1,
        (cutPlainFrom sep mode text).2.map dropBlanks) := by
  intro text
  induction text with
  | nil =>
    intro mode
    rw [dropBlanksFrom_nil, cutPlainFrom]
    simp
  | cons c text ih =>
    intro mode
    by_cases hcut : mode = .plain ∧ c = sep ∧ c ≠ '"'
    · -- a separator is kept, and the pieces begin anew behind it
      have hkeep : ¬(mode = .plain ∧ isBlank c = true) := by
        rintro ⟨-, hblank⟩
        rw [hcut.2.1, hsep] at hblank
        exact Bool.false_ne_true hblank
      have hnext : mode.next c = mode := by rw [hcut.1, Mode.next_plain hcut.2.2]
      rw [dropBlanksFrom_of_not hkeep, hnext, cutPlainFrom, if_pos hcut, cutPlainFrom, if_pos hcut,
        ih]
      simp [hcut.1, dropBlanks]
    · -- a blank outside literals is dropped before the cut and after it
      by_cases hblank : mode = .plain ∧ isBlank c = true
      · obtain ⟨rfl, hblank⟩ := hblank
        rw [dropBlanksFrom_of_isBlank hblank, ih, cutPlainFrom, if_neg hcut,
          next_plain_of_isBlank hblank]
        simp only [dropBlanksFrom_of_isBlank hblank]
      · -- any other character stays where it is in its piece
        rw [dropBlanksFrom_of_not hblank, cutPlainFrom, if_neg hcut, ih, cutPlainFrom, if_neg hcut]
        simp only [dropBlanksFrom_of_not hblank]

/-- Cutting and dropping blanks may change places, if the separator is no blank. -/
theorem cutPlain_dropBlanks (text : List Char) :
    cutPlain sep (dropBlanks text) = (cutPlain sep text).map dropBlanks := by
  rw [cutPlain, cutPlain, dropBlanks, cutPlainFrom_dropBlanksFrom hsep]
  rfl

end Cut

theorem openQuoteFrom?_eq_none_iff : ∀ {text : List Char} {quote place : Position} {mode : Mode},
    openQuoteFrom? quote mode place text = none ↔ mode.after text = .plain := by
  intro text
  induction text with
  | nil =>
    intro quote place mode
    rw [openQuoteFrom?, Mode.after_nil]
    simp
  | cons c text ih =>
    intro quote place mode
    rw [openQuoteFrom?, Mode.after_cons]
    exact ih

theorem openQuote?_eq_none_iff {text : List Char} :
    openQuote? text = none ↔ Mode.after .plain text = .plain :=
  openQuoteFrom?_eq_none_iff

/-- The statements without their blanks, those that are blank left out, are cut from the text
without its blanks. -/
theorem map_dropBlanks_filter (pieces : List (List Char)) :
    (pieces.filter (!isBlankText ·)).map dropBlanks =
      (pieces.map dropBlanks).filter (· ≠ []) := by
  rw [List.filter_map]
  congr 1
  refine List.filter_congr fun piece _ => ?_
  rw [Bool.eq_iff_iff, Bool.not_eq_true', ← Bool.not_eq_true, isBlankText_iff]
  simp

/-- What texts without comments are cut into, if they are the same but for blanks. -/
theorem statementsOfStripped_of_dropBlanks_eq {text text' : List Char}
    (h : dropBlanks text = dropBlanks text') :
    (∃ raws raws', statementsOfStripped text = ⟨raws, none⟩ ∧
      statementsOfStripped text' = ⟨raws', none⟩ ∧
      raws.map dropBlanks = raws'.map dropBlanks) ∨
    ∃ place tail place' tail',
      (statementsOfStripped text).fault = some (.openLiteral place tail) ∧
      (statementsOfStripped text').fault = some (.openLiteral place' tail') := by
  -- what stands outside literals and in them is the same in both
  have hmode : Mode.after .plain text = Mode.after .plain text' := by
    rw [← after_dropBlanksFrom text, ← after_dropBlanksFrom text']
    exact congrArg _ h
  -- both texts end in a literal or neither does
  rcases hquote : openQuote? text with _ | place
  · have hquote' : openQuote? text' = none := by
      rw [openQuote?_eq_none_iff, ← hmode]
      exact openQuote?_eq_none_iff.mp hquote
    refine Or.inl ⟨_, _, by rw [statementsOfStripped, hquote],
      by rw [statementsOfStripped, hquote'], ?_⟩
    rw [map_dropBlanks_filter, map_dropBlanks_filter, ← cutPlain_dropBlanks (by decide),
      ← cutPlain_dropBlanks (by decide), h]
  · rcases hquote' : openQuote? text' with _ | place'
    · rw [openQuote?_eq_none_iff, ← hmode, ← openQuote?_eq_none_iff, hquote] at hquote'
      cases hquote'
    · exact Or.inr ⟨place, _, place', _, by rw [statementsOfStripped, hquote],
        by rw [statementsOfStripped, hquote']⟩

/-! ### Comments -/

/-- A comment ends at its first closing mark, which is that before which there is no other. -/
theorem cutComment?_eq_some_iff {text body tail : List Char} :
    cutComment? text = some (body, tail) ↔
      text = body ++ '*' :: ')' :: tail ∧ ¬['*', ')'] <:+: body := by
  constructor
  · intro h
    -- a body that goes on after the asterisk does not go on with the closing mark
    refine ⟨eq_append_of_cutComment? h, ?_⟩
    fun_induction cutComment? text generalizing body with
    | case1 => cases h
    | case2 rest =>
      cases h
      simp
    | case3 c rest hno ih =>
      obtain ⟨⟨b, t⟩, hb, heq⟩ := Option.map_eq_some_iff.mp h
      cases heq
      rw [List.infix_cons_iff, not_or]
      refine ⟨?_, ih hb⟩
      rintro ⟨more, heq⟩
      obtain ⟨rfl, hbody⟩ := List.cons.inj heq
      refine hno (more ++ '*' :: ')' :: tail) rfl ?_
      rw [eq_append_of_cutComment? hb, ← hbody]
      rfl
  · rintro ⟨rfl, hbody⟩
    -- the closing mark cannot stand earlier, since it would stand in the body
    induction body with
    | nil => rfl
    | cons c body ih =>
      rw [List.infix_cons_iff, not_or] at hbody
      have hno : ∀ rest, c = '*' → body ++ '*' :: ')' :: tail = ')' :: rest → False := by
        rintro rest rfl heq
        cases body with
        | nil => cases heq
        | cons d body =>
          obtain ⟨rfl, -⟩ := List.cons.inj heq
          exact hbody.1 ⟨body, rfl⟩
      rw [List.cons_append, cutComment?.eq_3 _ _ hno, ih hbody.2]
      rfl

theorem isBlank_of_mem_commentTrace {body : List Char} : ∀ c ∈ commentTrace body,
    isBlank c = true := by
  intro c hc
  rw [commentTrace] at hc
  split at hc
  · rw [List.mem_singleton.mp hc]
    decide
  · have hnewline : c = '\n' := by simpa using (List.mem_filter.mp hc).2
    rw [hnewline]
    decide

/-- Layout: blanks, or one comment. Both in any order and number come of inserting it several times.
-/
inductive IsLayout : List Char → Prop
  /-- Any number of blanks. -/
  | blanks {text : List Char} (h : ∀ c ∈ text, isBlank c = true) : IsLayout text
  /-- A comment with no closing mark but the one at its end. -/
  | comment {body : List Char} (h : ¬['*', ')'] <:+: body) :
    IsLayout ('(' :: '*' :: (body ++ ['*', ')']))

/-- `Strips mode before rest out mode'` says that dropping comments from `before ++ rest`, begun in
`mode`, comes to the place before `rest` in `mode'` and in no comment, and leaves `out` of what is
before it. -/
inductive Strips : Mode → List Char → List Char → List Char → Mode → Prop
  /-- The place where it begins. -/
  | here (mode : Mode) (rest : List Char) : Strips mode [] rest [] mode
  /-- A comment leaves its trace. -/
  | comment {body before rest out : List Char} {mode' : Mode} (hbody : ¬['*', ')'] <:+: body)
    (h : Strips .plain before rest out mode') :
    Strips .plain ('(' :: '*' :: (body ++ '*' :: ')' :: before)) rest (commentTrace body ++ out)
      mode'
  /-- Any other character stays.  Outside literals it may not begin the mark of a comment. -/
  | char {mode mode' : Mode} {c : Char} {before rest out : List Char}
    (hno : mode = .plain → c = '(' → (before ++ rest).head? ≠ some '*')
    (h : Strips (mode.next c) before rest out mode') :
    Strips mode (c :: before) rest (c :: out) mode'

theorem exists_error_of_toOption_eq_none {ε α : Type} {x : Except ε α} (h : x.toOption = none) :
    ∃ e, x = .error e := by
  cases x with
  | error e => exact ⟨e, rfl⟩
  | ok a => cases h

theorem eq_ok_of_toOption_eq_some {ε α : Type} {x : Except ε α} {a : α} (h : x.toOption = some a) :
    x = .ok a := by
  cases x with
  | error e => cases h
  | ok b => rw [Option.some.inj h]

theorem toOption_map {ε α β : Type} (f : α → β) (x : Except ε α) :
    (f <$> x).toOption = x.toOption.map f := by
  cases x <;> rfl

section Strip

variable {mode mode' : Mode} {before rest out : List Char}

/-- A character that begins no comment stays. -/
theorem stripCommentsFrom_cons {c : Char} {text : List Char} (place : Position)
    (hno : mode = .plain → c = '(' → text.head? ≠ some '*') :
    stripCommentsFrom mode place (c :: text) =
      (c :: ·) <$> stripCommentsFrom (mode.next c) (place.advance c) text := by
  rw [stripCommentsFrom]
  rintro tail hmode rfl rfl
  exact hno hmode rfl rfl

theorem stripCommentsFrom_open {rest : List Char} (h : cutComment? rest = none)
    (place : Position) : stripCommentsFrom .plain place ('(' :: '*' :: rest) = .error place := by
  rw [stripCommentsFrom]
  split
  · rfl
  · next hsome =>
    rw [h] at hsome
    cases hsome

theorem stripCommentsFrom_comment {body : List Char} (hbody : ¬['*', ')'] <:+: body)
    (place : Position) (tail : List Char) :
    stripCommentsFrom .plain place ('(' :: '*' :: (body ++ '*' :: ')' :: tail)) =
      (commentTrace body ++ ·) <$>
        stripCommentsFrom .plain (place.after ('(' :: '*' :: (body ++ ['*', ')']))) tail := by
  have hcut : cutComment? (body ++ '*' :: ')' :: tail) = some (body, tail) :=
    cutComment?_eq_some_iff.mpr ⟨rfl, hbody⟩
  rw [stripCommentsFrom]
  split
  · next hnone =>
    rw [hcut] at hnone
    cases hnone
  · next b t hsome =>
    rw [hcut] at hsome
    cases hsome
    rfl

/-- Where a text begins does not matter for what is left of it. -/
theorem toOption_stripCommentsFrom (place place' : Position) (text : List Char) :
    (stripCommentsFrom mode place text).toOption
      = (stripCommentsFrom mode place' text).toOption := by
  fun_induction stripCommentsFrom mode place text generalizing place' with
  | case1 => rw [stripCommentsFrom]
  | case2 place rest hnone =>
    rw [stripCommentsFrom]
    split
    · rfl
    · next hsome =>
      rw [hnone] at hsome
      cases hsome
  | case3 place rest body tail hcut ih =>
    obtain ⟨rfl, hbody⟩ := cutComment?_eq_some_iff.mp hcut
    rw [stripCommentsFrom_comment hbody, toOption_map, toOption_map, ih]
  | case4 mode place c rest hno ih =>
    rw [stripCommentsFrom.eq_3 _ _ _ _ hno, toOption_map, toOption_map, ih]

/-- Dropping comments comes to the place with what is left, and goes on from there. -/
theorem Strips.stripCommentsFrom_eq (h : Strips mode before rest out mode') : ∀ place : Position,
    stripCommentsFrom mode place (before ++ rest) =
      (out ++ ·) <$> stripCommentsFrom mode' (place.after before) rest := by
  induction h with
  | here mode rest => exact fun place => (id_map _).symm
  | @comment body before rest out mode' hbody _ ih =>
    intro place
    have htext : '(' :: '*' :: (body ++ '*' :: ')' :: before) ++ rest
        = '(' :: '*' :: (body ++ '*' :: ')' :: (before ++ rest)) := by simp
    have hplace : place.after ('(' :: '*' :: (body ++ '*' :: ')' :: before))
        = (place.after ('(' :: '*' :: (body ++ ['*', ')']))).after before := by
      rw [← Position.after_append]
      simp
    rw [htext, stripCommentsFrom_comment hbody, ih, hplace, Functor.map_map]
    simp only [List.append_assoc]
  | char hno _ ih =>
    intro place
    rw [List.cons_append, stripCommentsFrom_cons place hno, ih, Functor.map_map]
    rfl

/-- What is left of a text is what is left before the place and what is left from there on. -/
theorem Strips.toOption_eq (h : Strips mode before rest out mode') (place place' : Position) :
    (stripCommentsFrom mode place (before ++ rest)).toOption =
      (stripCommentsFrom mode' place' rest).toOption.map (out ++ ·) := by
  rw [h.stripCommentsFrom_eq, toOption_map, toOption_stripCommentsFrom _ place']

/-- What is left leads to the same mode. -/
theorem Strips.after_eq (h : Strips mode before rest out mode') : mode.after out = mode' := by
  induction h with
  | here => rfl
  | comment _ _ ih =>
    rw [Mode.after_append, after_plain_of_forall_isBlank isBlank_of_mem_commentTrace, ih]
  | char _ _ ih => rw [Mode.after_cons, ih]

/-- A text without opening parentheses has no comments to drop. -/
theorem Strips.of_notMem : ∀ {before : List Char}, '(' ∉ before → ∀ (mode : Mode)
    (rest : List Char), Strips mode before rest before (mode.after before) := by
  intro before
  induction before with
  | nil => exact fun _ mode rest => .here mode rest
  | cons c before ih =>
    intro h mode rest
    refine .char (fun _ hc => ?_) (ih (fun hmem => h (List.mem_cons_of_mem _ hmem)) _ rest)
    exact absurd (hc ▸ List.mem_cons_self) h

/-! ### Insertion -/

variable {layout : List Char}

/-- Layout does not begin with a star, so it does not make a comment of what is before it. -/
theorem IsLayout.head?_ne (h : IsLayout layout) (hrest : rest.head? ≠ some '*') :
    (layout ++ rest).head? ≠ some '*' := by
  cases h with
  | comment => simp
  | blanks h =>
    cases layout with
    | nil => exact hrest
    | cons c layout =>
      rintro heq
      have hc : c = '*' := Option.some.inj heq
      have hblank := h c List.mem_cons_self
      rw [hc] at hblank
      revert hblank
      decide

/-- Layout leaves blanks when comments are dropped: those it is made of, or what stands for a
comment. -/
theorem IsLayout.strips (h : IsLayout layout) (rest : List Char) :
    ∃ blanks, (∀ c ∈ blanks, isBlank c = true) ∧ Strips .plain layout rest blanks .plain := by
  cases h with
  | blanks h =>
    refine ⟨layout, h, ?_⟩
    have hno : '(' ∉ layout := fun hmem => absurd (h _ hmem) (by decide)
    have hstrips := Strips.of_notMem hno .plain rest
    rwa [after_plain_of_forall_isBlank h] at hstrips
  | comment h =>
    exact ⟨_, isBlank_of_mem_commentTrace, by simpa using Strips.comment h (.here .plain rest)⟩

/-- A place outside literals and comments stays one when layout is inserted there. -/
theorem Strips.insert (hlayout : IsLayout layout) (h : Strips mode before rest out mode')
    (hmode : mode' = .plain) : Strips mode before (layout ++ rest) out mode' := by
  induction h with
  | here mode rest => exact .here mode _
  | comment hbody _ ih => exact .comment hbody (ih hmode)
  | @char mode mode' c before rest out hno _ ih =>
    refine .char (fun hplain hc => ?_) (ih hmode)
    have hhead := hno hplain hc
    cases before with
    | nil => exact hlayout.head?_ne hhead
    | cons d before => exact hhead

/-- What is left of a text into which layout is inserted has blanks more. -/
theorem Strips.toOption_insert (h : Strips .plain before rest out .plain)
    (hlayout : IsLayout layout) : ∃ blanks, (∀ c ∈ blanks, isBlank c = true) ∧
      (stripComments (before ++ rest)).toOption =
        (stripCommentsFrom .plain .first rest).toOption.map (out ++ ·) ∧
      (stripComments (before ++ (layout ++ rest))).toOption =
        (stripCommentsFrom .plain .first rest).toOption.map fun s => out ++ (blanks ++ s) := by
  obtain ⟨blanks, hblanks, hstrips⟩ := hlayout.strips rest
  refine ⟨blanks, hblanks, h.toOption_eq .first .first, ?_⟩
  rw [stripComments, (h.insert hlayout rfl).toOption_eq .first .first,
    hstrips.toOption_eq .first .first, Option.map_map]
  rfl

end Strip

theorem readStatements_of_error {text : List Char} {place : Position}
    (h : stripComments text = .error place) :
    readStatements text = .error (.openComment place) := by
  rw [readStatements, statements, h]

theorem readStatements_of_complete {text stripped : List Char} {raws : List (List Char)}
    (h : stripComments text = .ok stripped) (hraws : statementsOfStripped stripped = ⟨raws, none⟩) :
    readStatements text = .ok raws := by
  rw [readStatements, statements, h]
  dsimp only
  rw [hraws]

theorem readStatements_of_fault {text stripped : List Char} {fault : TextFault}
    (h : stripComments text = .ok stripped)
    (hfault : (statementsOfStripped stripped).fault = some fault) :
    readStatements text = .error fault := by
  rw [readStatements, statements, h]
  dsimp only
  generalize statementsOfStripped stripped = found at hfault
  obtain ⟨complete, _⟩ := found
  cases hfault
  rfl

/-- **Layout that is inserted leaves the statements as they are.**  If it is inserted outside
literals and comments, both texts are cut into statements that are the same but for blanks, or both
have a comment without end, or both a literal. -/
theorem readStatements_insert {before rest out layout : List Char}
    (h : Strips .plain before rest out .plain) (hlayout : IsLayout layout) :
    (∃ raws raws', readStatements (before ++ rest) = .ok raws ∧
      readStatements (before ++ (layout ++ rest)) = .ok raws' ∧
      raws.map dropBlanks = raws'.map dropBlanks) ∨
    (∃ place place', readStatements (before ++ rest) = .error (.openComment place) ∧
      readStatements (before ++ (layout ++ rest)) = .error (.openComment place')) ∨
    ∃ place tail place' tail',
      readStatements (before ++ rest) = .error (.openLiteral place tail) ∧
      readStatements (before ++ (layout ++ rest)) = .error (.openLiteral place' tail') := by
  -- without comments, the texts differ by the blanks that comments leave
  obtain ⟨blanks, hblanks, hstrip, hstrip'⟩ := h.toOption_insert hlayout
  rcases hrest : (stripCommentsFrom .plain .first rest).toOption with _ | stripped
  · -- the comment without end stands in the rest
    rw [hrest] at hstrip hstrip'
    obtain ⟨place, hplace⟩ := exists_error_of_toOption_eq_none hstrip
    obtain ⟨place', hplace'⟩ := exists_error_of_toOption_eq_none hstrip'
    exact Or.inr (Or.inl ⟨place, place', readStatements_of_error hplace,
      readStatements_of_error hplace'⟩)
  · rw [hrest] at hstrip hstrip'
    have hok := eq_ok_of_toOption_eq_some hstrip
    have hok' := eq_ok_of_toOption_eq_some hstrip'
    have hsame := dropBlanks_insert h.after_eq hblanks stripped
    rcases statementsOfStripped_of_dropBlanks_eq hsame.symm
      with ⟨raws, raws', hraws, hraws', heq⟩ | ⟨place, tail, place', tail', hfault, hfault'⟩
    · exact Or.inl ⟨raws, raws', readStatements_of_complete hok hraws,
        readStatements_of_complete hok' hraws', heq⟩
    · exact Or.inr (Or.inr ⟨place, tail, place', tail', readStatements_of_fault hok hfault,
        readStatements_of_fault hok' hfault'⟩)

end Ebnf.Source
