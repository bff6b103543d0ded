import Ebnf.Grammar.Fault
import Ebnf.Proofs.Source.Nesting

/-!
# Splitting and joining

Splitting a text keeps the account of a scan, so it gives pieces exactly for balanced texts, and its
fault is the end that the scan comes to.  Pieces are balanced too and have no separator outside
brackets and literals, so each of them is split into itself alone; such texts can be joined, and
splitting what is joined gives them back.

## Main definitions

* `Source.Unbalanced` — why a text is not balanced.

## Main results

* `Source.exists_map_of_scan` — splitting goes on where a scan of the beginning ends.
* `Source.splitTop_eq_error_iff` — **the fault of a text that cannot be split.**
* `Source.splitTop_spec` — **splitting is the inverse of joining.**
-/

namespace Ebnf.Source

/-! ### Faults -/

/-- The text is not balanced, for the reason given.  A wrong closer counts first, then a literal
without end, and at last an open bracket, the innermost one. -/
inductive Unbalanced (text : List Char) : SplitFault → Prop
  /-- A closer is wrong. -/
  | closer {c : Char} (h : ClosesWrongly text c) : Unbalanced text (.unexpectedCloser c)
  /-- A literal stays open. -/
  | literal (h : EndsInLiteral text) : Unbalanced text .openLiteral
  /-- A bracket stays open. -/
  | bracket {b : Bracket} {opened : List Bracket} (h : LeavesOpen (b :: opened) text) :
    Unbalanced text (.missingCloser b)

/-- A text is balanced or it is not, and then there is a reason. -/
theorem balanced_or_unbalanced (text : List Char) :
    Balanced text ∨ ∃ fault, Unbalanced text fault := by
  rcases hscan : scan never .plain [] text with _ | ⟨mode, opened⟩
  · obtain ⟨c, h⟩ := scan_eq_none_iff.mp hscan
    exact Or.inr ⟨_, .closer h⟩
  · by_cases hmode : mode = .plain
    · subst hmode
      cases opened with
      | nil => exact Or.inl (Closed.balanced hscan)
      | cons b opened => exact Or.inr ⟨_, .bracket (scan_eq_leavesOpen_iff.mp hscan)⟩
    · exact Or.inr ⟨_, .literal (exists_scan_eq_literal_iff.mp ⟨mode, opened, hmode, hscan⟩)⟩

section Split

variable {sep : Char} {mode mode' : Mode} {opened opened' : List Bracket} {text : List Char}

/-- Splitting goes on where a scan of the beginning ends, and what is split off the beginning only
stands before the rest. -/
theorem exists_map_of_scan : ∀ {text : List Char} {mode : Mode} {opened : List Bracket},
    scan never mode opened text = some (mode', opened') →
    ∃ f, ∀ rest, splitFrom sep mode opened (text ++ rest) = f <$> splitFrom sep mode' opened' rest
    := by
  intro text
  induction text with
  | nil =>
    intro mode opened h
    rw [scan_nil] at h
    cases h
    exact ⟨id, fun rest => (id_map _).symm⟩
  | cons c text ih =>
    intro mode opened h
    obtain ⟨-, opened₁, hstep, h⟩ := scan_cons_eq_some h
    obtain ⟨f, hf⟩ := ih h
    -- a separator begins a new piece
    by_cases hstop : mode = .plain ∧ opened = [] ∧ separates sep c = true
    · obtain ⟨rfl, rfl, hsep⟩ := hstop
      obtain ⟨hsame, hnext⟩ := @step_of_separates sep [] c hsep
      obtain rfl := Option.some.inj (hsame.symm.trans hstep)
      rw [hnext] at hf
      refine ⟨(fun split => ([], split.1 :: split.2)) ∘ f, fun rest => ?_⟩
      rw [List.cons_append, splitFrom_cons_sep hsep, hf, Functor.map_map]
      rfl
    · -- and any other character goes to the piece that has begun
      refine ⟨(fun split => (c :: split.1, split.2)) ∘ f, fun rest => ?_⟩
      rw [List.cons_append, splitFrom_cons_of_step hstop hstep, hf, Functor.map_map]
      rfl

/-- Splitting a text ends as the scan of it does. -/
theorem exists_splitTop_of_scan (h : scan never .plain [] text = some (mode', opened')) :
    ∃ f : List Char × List (List Char) → List (List Char), ∀ rest,
      splitTop sep (text ++ rest) = f <$> splitFrom sep mode' opened' rest := by
  obtain ⟨f, hf⟩ := @exists_map_of_scan sep mode' opened' _ _ _ h
  refine ⟨(fun split => split.1 :: split.2) ∘ f, fun rest => ?_⟩
  rw [splitTop, hf, Functor.map_map]
  rfl

theorem Closed.exists_splitTop (h : Closed text) (sep : Char) :
    ∃ pieces, splitTop sep text = .ok pieces := by
  obtain ⟨f, hf⟩ := @exists_splitTop_of_scan sep _ _ _ h
  have hsplit := hf []
  rw [List.append_nil, splitFrom_nil] at hsplit
  exact ⟨_, hsplit⟩

theorem Unbalanced.splitTop_eq {fault : SplitFault} (h : Unbalanced text fault) (sep : Char) :
    splitTop sep text = .error fault := by
  cases h with
  -- the beginning up to what is wrong can be scanned, and there splitting stops
  | @closer c h =>
    obtain ⟨before, after, opened, b, rfl, rfl, hbefore, hhead⟩ := h
    obtain ⟨f, hf⟩ := @exists_splitTop_of_scan sep _ _ _ (scan_eq_leavesOpen_iff.mpr hbefore)
    rw [hf, splitFrom_cons_of_step_eq_none (step_closer_of_ne hhead)]
    rfl
  | literal h =>
    obtain ⟨mode, opened, hmode, hscan⟩ := exists_scan_eq_literal_iff.mpr h
    obtain ⟨f, hf⟩ := @exists_splitTop_of_scan sep _ _ _ hscan
    have hsplit := hf []
    rw [List.append_nil] at hsplit
    rw [hsplit]
    cases mode with
    | plain => exact absurd rfl hmode
    | literal => rfl
    | escape => rfl
  | bracket h =>
    obtain ⟨f, hf⟩ := @exists_splitTop_of_scan sep _ _ _ (scan_eq_leavesOpen_iff.mpr h)
    have hsplit := hf []
    rw [List.append_nil] at hsplit
    rw [hsplit]
    rfl

/-- A text can be split if and only if it is balanced. -/
theorem exists_splitTop_iff : (∃ pieces, splitTop sep text = .ok pieces) ↔ Balanced text := by
  refine ⟨fun ⟨pieces, h⟩ => ?_, fun h => h.closed.exists_splitTop sep⟩
  rcases balanced_or_unbalanced text with hbalanced | ⟨fault, hfault⟩
  · exact hbalanced
  · rw [hfault.splitTop_eq] at h
    cases h

/-- **The fault of a text that cannot be split** is why it is not balanced. Of several reasons the
first wrong closer counts, then a literal, and then a bracket without closer. -/
theorem splitTop_eq_error_iff {fault : SplitFault} :
    splitTop sep text = .error fault ↔ Unbalanced text fault := by
  refine ⟨fun h => ?_, fun h => h.splitTop_eq sep⟩
  rcases balanced_or_unbalanced text with hbalanced | ⟨fault', hfault⟩
  · obtain ⟨pieces, hpieces⟩ := hbalanced.closed.exists_splitTop sep
    rw [hpieces] at h
    cases h
  · rw [hfault.splitTop_eq] at h
    cases h
    exact hfault

end Split

/-! ### Joining -/

theorem intercalate_cons {sep : Char} : ∀ (first : List Char) (others : List (List Char)),
    [sep].intercalate (first :: others) = first ++ others.flatMap (sep :: ·) := by
  intro first others
  induction others generalizing first with
  | nil => rw [List.intercalate_singleton, List.flatMap_nil, List.append_nil]
  | cons second others ih =>
    rw [List.intercalate_cons_cons, ih, List.flatMap_cons, List.append_assoc]
    rfl

/-- The pieces of a text are joined to it, and none of them can be split further. -/
theorem join_of_splitTop {sep : Char} {text : List Char} {pieces : List (List Char)}
    (h : splitTop sep text = .ok pieces) :
    [sep].intercalate pieces = text ∧ ∀ p ∈ pieces, splitTop sep p = .ok [p] := by
  obtain ⟨first, others, rfl, htext⟩ := eq_join_of_splitTop h
  refine ⟨(intercalate_cons first others).trans htext.symm, fun p hp => ?_⟩
  exact splitTop_of_solid (solid_of_mem_splitTop h p hp)

/-- Texts that cannot be split further are the pieces of what they are joined to. -/
theorem splitTop_intercalate {sep : Char} (hsep : Ordinary sep) : ∀ {pieces : List (List Char)},
    pieces ≠ [] → (∀ p ∈ pieces, splitTop sep p = .ok [p]) →
    splitTop sep ([sep].intercalate pieces) = .ok pieces
  | [], hne, _ => absurd rfl hne
  | [p], _, h => by
    rw [List.intercalate_singleton]
    exact h p List.mem_cons_self
  | p :: q :: pieces, _, h => by
    have hrest := splitTop_intercalate hsep (List.cons_ne_nil q pieces)
      fun p' hp' => h p' (List.mem_cons_of_mem p hp')
    have hp : Solid sep p := solid_of_mem_splitTop (h p List.mem_cons_self) p List.mem_cons_self
    rw [List.intercalate_cons_cons, List.append_assoc]
    exact splitTop_append (separates_self_iff.mpr hsep) hp hrest

/-- **Splitting is the inverse of joining.**  A text can be split if and only if it is balanced, and
otherwise the fault is why it is not: of a literal without end the kind of the fault is that of
literals, and of a bracket that of brackets.  Joining the pieces of a text gives it back, and no
piece can be split further.  Texts that cannot be split further, empty ones among them, are the
pieces of what they are joined to. -/
theorem splitTop_spec {sep : Char} (hsep : Ordinary sep) :
    (∀ text,
      ((∃ pieces, splitTop sep text = .ok pieces) ↔ Balanced text) ∧
      (∀ fault, splitTop sep text = .error fault ↔ Unbalanced text fault) ∧
      (∀ fault, splitTop sep text = .error fault →
        (Cause.split fault (String.ofList text)).kind =
          if fault = .openLiteral then .unterminatedLiteral else .unbalancedBracket) ∧
      ∀ pieces, splitTop sep text = .ok pieces →
        [sep].intercalate pieces = text ∧ ∀ p ∈ pieces, splitTop sep p = .ok [p]) ∧
    ∀ pieces, pieces ≠ [] → (∀ p ∈ pieces, splitTop sep p = .ok [p]) →
      splitTop sep ([sep].intercalate pieces) = .ok pieces := by
  refine ⟨fun text => ⟨exists_splitTop_iff, fun _ => splitTop_eq_error_iff, fun fault _ => ?_,
    fun _ => join_of_splitTop⟩, fun _ => splitTop_intercalate hsep⟩
  cases fault <;> rfl

/-- Pieces with bars in a bracket and in a literal, an empty one between them, and a text in which a
closer is wrong before a literal stays open. -/
theorem splitTop_spec_bars :
    Ordinary '|' ∧
      splitTop '|' ['[', 'a', '|', 'b', ']', '|', '|', '"', '|', '"'] =
        .ok [['[', 'a', '|', 'b', ']'], [], ['"', '|', '"']] ∧
      Unbalanced ['[', 'a', '\x7d', '"'] (.unexpectedCloser '\x7d') := by
  obtain ⟨htexts, hjoin⟩ := @splitTop_spec '|' (by decide)
  obtain ⟨-, hfault, -⟩ := htexts ['[', 'a', '\x7d', '"']
  have hpieces : ∀ p ∈ [['[', 'a', '|', 'b', ']'], [], ['"', '|', '"']],
      splitTop '|' p = .ok [p] := by
    simp only [List.forall_mem_cons]
    exact ⟨rfl, rfl, rfl, List.forall_mem_nil _⟩
  exact ⟨by decide, hjoin _ (by decide) hpieces, (hfault _).mp rfl⟩

end Ebnf.Source
