import Ebnf.Proofs.Definition.Unfolding
import Ebnf.Proofs.Source.Splitting

/-!
# Blanks in what is split

A statement loses its blanks before it is cut at its equals sign and before its definitions are
split.  It may as well be cut and split with its blanks: whether that succeeds, and with which fault
it fails, does not depend on them, and the parts differ in blanks alone.  A blank leads neither into
a literal nor out of one, opens and closes no bracket, and is no separator.

## Main results

* `Source.splitFrom_dropBlanksFrom` — splitting goes over blanks.
* `Source.findPlainFrom?_dropBlanksFrom` — so does looking for a character.
* `Source.dropBlanks_commutes` — **blanks may be dropped before or after cutting and splitting.**
-/

namespace Ebnf.Source

open Text (isBlank)

/-! ### Splitting -/

theorem neutral_of_isBlank {c : Char} (h : isBlank c = true) : Neutral .plain c := by
  refine fun _ => ⟨Option.eq_none_iff_forall_ne_some.mpr fun b hb => ?_,
    Option.eq_none_iff_forall_ne_some.mpr fun b hb => ?_⟩
  · rw [Bracket.eq_opener_of_ofOpener? hb] at h
    cases b <;> exact absurd h (by decide)
  · rw [Bracket.eq_closer_of_ofCloser? hb] at h
    cases b <;> exact absurd h (by decide)

section Split

variable {sep : Char} {mode : Mode} {opened : List Bracket} {c : Char}

theorem separates_of_isBlank (hsep : isBlank sep = false) (h : isBlank c = true) :
    separates sep c = false := by
  have hne : c ≠ sep := by
    rintro rfl
    exact Bool.false_ne_true (hsep.symm.trans h)
  simp [separates, hne]

/-- Splitting goes over blanks: without them the pieces are the same but for theirs, and so is the
fault if there is one. -/
theorem splitFrom_dropBlanksFrom (hsep : isBlank sep = false) : ∀ (text : List Char) (mode : Mode)
    (opened : List Bracket), splitFrom sep mode opened (dropBlanksFrom mode text) =
      (fun split => (dropBlanksFrom mode split.1, split.2.map dropBlanks)) <$>
        splitFrom sep mode opened text := by
  intro text
  induction text with
  | nil =>
    intro mode opened
    rw [dropBlanksFrom_nil]
    cases mode with
    | plain => cases opened <;> rfl
    | literal => rfl
    | escape => rfl
  | cons c text ih =>
    intro mode opened
    -- a blank outside literals is neutral, and goes with the piece it stands in
    by_cases hblank : mode = .plain ∧ isBlank c = true
    · obtain ⟨rfl, hblank⟩ := hblank
      have hstop : ¬(Mode.plain = .plain ∧ opened = [] ∧ separates sep c = true) := by
        simp [separates_of_isBlank hsep hblank]
      rw [dropBlanksFrom_of_isBlank hblank, ih,
        splitFrom_cons_of_step hstop (step_of_neutral (neutral_of_isBlank hblank) opened),
        next_plain_of_isBlank hblank, Functor.map_map]
      simp only [dropBlanksFrom_of_isBlank hblank]
    · rw [dropBlanksFrom_of_not hblank]
      by_cases hstop : mode = .plain ∧ opened = [] ∧ separates sep c = true
      · -- the pieces begin anew behind a separator
        obtain ⟨rfl, rfl, hc⟩ := hstop
        rw [splitFrom_cons_sep hc, splitFrom_cons_sep hc, (@step_of_separates sep [] c hc).2, ih,
          Functor.map_map, Functor.map_map]
        simp only [dropBlanksFrom_nil, List.map_cons, dropBlanks]
      · -- any other character is kept and changes brackets and mode as before
        rcases hstep : step mode opened c with _ | opened'
        · rw [splitFrom_cons_of_step_eq_none hstep, splitFrom_cons_of_step_eq_none hstep]
          rfl
        · rw [splitFrom_cons_of_step hstop hstep, splitFrom_cons_of_step hstop hstep, ih,
            Functor.map_map, Functor.map_map]
          simp only [dropBlanksFrom_of_not hblank]

/-- Splitting and dropping blanks may change places. -/
theorem splitTop_dropBlanks (hsep : isBlank sep = false) (text : List Char) :
    splitTop sep (dropBlanks text) = List.map dropBlanks <$> splitTop sep text := by
  rw [splitTop, splitTop, dropBlanks, splitFrom_dropBlanksFrom hsep, Functor.map_map,
    Functor.map_map]
  rfl

/-- Blanks do not change the fault of a text that cannot be split. -/
theorem splitTop_dropBlanks_eq_error_iff (hsep : isBlank sep = false) {text : List Char}
    {fault : SplitFault} :
    splitTop sep (dropBlanks text) = .error fault ↔ splitTop sep text = .error fault := by
  rw [splitTop_dropBlanks hsep]
  rcases splitTop sep text with fault' | pieces
  · exact Iff.rfl
  · exact iff_of_false nofun nofun

end Split

/-! ### Finding -/

section Find

variable {target : Char}

/-- Looking for a character goes over blanks: it is found as far on as what stands before it is long
without them. -/
theorem findPlainFrom?_dropBlanksFrom (htarget : isBlank target = false) :
    ∀ (text : List Char) (mode : Mode), findPlainFrom? target mode (dropBlanksFrom mode text) =
      (findPlainFrom? target mode text).map fun cut =>
        (dropBlanksFrom mode (text.take cut)).length := by
  intro text
  induction text with
  | nil =>
    intro mode
    rw [dropBlanksFrom_nil, findPlainFrom?, Option.map_none]
  | cons c text ih =>
    intro mode
    -- a blank is not what is looked for, so it only moves the place
    by_cases hblank : mode = .plain ∧ isBlank c = true
    · obtain ⟨rfl, hblank⟩ := hblank
      have hno : ¬(Mode.plain = .plain ∧ c = target ∧ c ≠ '"') := by
        rintro ⟨-, rfl, -⟩
        exact Bool.false_ne_true (htarget.symm.trans hblank)
      rw [dropBlanksFrom_of_isBlank hblank, ih, findPlainFrom?, if_neg hno,
        next_plain_of_isBlank hblank, Option.map_map]
      simp only [Function.comp_def, List.take_succ_cons, dropBlanksFrom_of_isBlank hblank]
    · rw [dropBlanksFrom_of_not hblank, findPlainFrom?, findPlainFrom?]
      by_cases hfound : mode = .plain ∧ c = target ∧ c ≠ '"'
      · rw [if_pos hfound, if_pos hfound, Option.map_some, List.take_zero, dropBlanksFrom_nil]
        rfl
      · rw [if_neg hfound, if_neg hfound, ih, Option.map_map, Option.map_map]
        simp only [Function.comp_def, List.take_succ_cons, dropBlanksFrom_of_not hblank,
          List.length_cons]

/-- What stands before a place that was found ends outside literals. -/
theorem after_take_of_findPlainFrom? : ∀ {text : List Char} {mode : Mode} {cut : Nat},
    findPlainFrom? target mode text = some cut →
    target ≠ '"' ∧ mode.after (text.take cut) = .plain := by
  intro text
  induction text with
  | nil => intro mode cut h; cases h
  | cons c text ih =>
    intro mode cut h
    rw [findPlainFrom?] at h
    split at h
    · next hc =>
      cases h
      exact ⟨hc.2.1 ▸ hc.2.2, hc.1⟩
    · obtain ⟨n, hn, rfl⟩ := Option.map_eq_some_iff.mp h
      exact ih hn

/-- Where a text is cut at a character outside literals, it may as well be without its blanks. -/
theorem exists_findPlain?_dropBlanks (htarget : isBlank target = false) {text : List Char}
    {cut : Nat} (h : findPlain? target text = some cut) :
    ∃ cut', findPlain? target (dropBlanks text) = some cut' ∧
      (dropBlanks text).take cut' = dropBlanks (text.take cut) ∧
      (dropBlanks text).drop (cut' + 1) = dropBlanks (text.drop (cut + 1)) := by
  obtain ⟨hquote, hplain⟩ := after_take_of_findPlainFrom? h
  have hkeep : ¬(Mode.plain = .plain ∧ isBlank target = true) := by simp [htarget]
  -- the character found is kept, and reading goes on outside literals behind it
  have hdrop : dropBlanks text =
      dropBlanks (text.take cut) ++ target :: dropBlanks (text.drop (cut + 1)) := by
    calc dropBlanks text
      _ = dropBlanks (text.take cut ++ target :: text.drop (cut + 1)) := by
        rw [← eq_append_of_findPlainFrom? h]
      _ = dropBlanks (text.take cut) ++
          dropBlanksFrom .plain (target :: text.drop (cut + 1)) := by
        rw [dropBlanks, dropBlanksFrom_append, hplain]
        rfl
      _ = dropBlanks (text.take cut) ++ target :: dropBlanks (text.drop (cut + 1)) := by
        rw [dropBlanksFrom_of_not hkeep, Mode.next_plain hquote]
        rfl
  refine ⟨(dropBlanks (text.take cut)).length, ?_, ?_, ?_⟩
  · have hfind := findPlainFrom?_dropBlanksFrom htarget text .plain
    rw [show findPlainFrom? target .plain text = some cut from h] at hfind
    exact hfind
  · rw [hdrop, List.take_left]
  · rw [hdrop, List.drop_append, List.drop_eq_nil_of_le (Nat.le_succ _), List.nil_append,
      Nat.add_sub_cancel_left]
    rfl

end Find

/-- **Blanks may be dropped before or after cutting and splitting.**  There is nothing to drop a
second time, and a text that is cut outside literals loses the blanks of its parts.  Splitting at a
character that is no blank has the same fault with and without blanks, or none, and then the pieces
are those of the text, each without its blanks.  The first equals sign outside literals is found
with and without blanks or not at all, and what is before and behind it is the same but for
blanks. -/
theorem dropBlanks_commutes :
    (∀ text, dropBlanks (dropBlanks text) = dropBlanks text) ∧
    (∀ before rest, Mode.after .plain before = .plain →
      dropBlanks (before ++ rest) = dropBlanks before ++ dropBlanks rest) ∧
    (∀ sep, isBlank sep = false → ∀ text,
      splitTop sep (dropBlanks text) = List.map dropBlanks <$> splitTop sep text ∧
      ∀ fault, splitTop sep (dropBlanks text) = .error fault ↔
        splitTop sep text = .error fault) ∧
    ∀ text, (findPlain? '=' (dropBlanks text) = none ↔ findPlain? '=' text = none) ∧
      ∀ cut, findPlain? '=' text = some cut →
        ∃ cut', findPlain? '=' (dropBlanks text) = some cut' ∧
          (dropBlanks text).take cut' = dropBlanks (text.take cut) ∧
          (dropBlanks text).drop (cut' + 1) = dropBlanks (text.drop (cut + 1)) := by
  refine ⟨dropBlanks_dropBlanks, fun before rest hplain => ?_, fun sep hsep text =>
    ⟨splitTop_dropBlanks hsep text, fun fault => splitTop_dropBlanks_eq_error_iff hsep⟩,
    fun text => ⟨?_, fun cut => exists_findPlain?_dropBlanks (by decide)⟩⟩
  · rw [dropBlanks, dropBlanksFrom_append, hplain]
    rfl
  · rw [findPlain?, findPlain?, dropBlanks, findPlainFrom?_dropBlanksFrom (by decide),
      Option.map_eq_none_iff]

/-- Blanks around an equals sign and beside bars, one of them in a literal, and in a text whose
bracket stays open. -/
theorem dropBlanks_commutes_bars :
    dropBlanks ['a', ' ', '|', ' '] = dropBlanks ['a', ' '] ++ dropBlanks ['|', ' '] ∧
      splitTop '|' ['a', '|', '"', ' ', '|', '"'] = .ok [['a'], ['"', ' ', '|', '"']] ∧
      splitTop '|' ['[', 'a'] = .error (.missingCloser .optional) ∧
      ∃ cut, findPlain? '=' ['x', 'y', '=', 'a'] = some cut ∧
        ['x', 'y', '=', 'a'].take cut = ['x', 'y'] := by
  obtain ⟨-, happend, hsplit, hfind⟩ := dropBlanks_commutes
  obtain ⟨hpieces, -⟩ := hsplit '|' (by decide) ['a', ' ', '|', ' ', '"', ' ', '|', '"']
  obtain ⟨-, hfault⟩ := hsplit '|' (by decide) ['[', ' ', 'a']
  obtain ⟨-, hcut⟩ := hfind ['x', ' ', 'y', ' ', '=', 'a']
  obtain ⟨cut, hcut, htake, -⟩ := hcut 4 (by decide)
  exact ⟨happend ['a', ' '] ['|', ' '] (by decide), hpieces.trans rfl, (hfault _).mpr rfl, cut,
    hcut, htake⟩

end Ebnf.Source
