import Ebnf.Source.Bracket

/-!
# Finding and splitting outside literals and brackets

Separators count only outside literals, and for splitting only outside brackets as well. What is
enclosed in a bracket is split when the bracket itself is read.

## Main definitions

* `findPlain?` — the first place of a character outside literals.
* `splitTop` — the pieces between the separators of a text, or the reason why its brackets and
  literals do not match.
* `length_le_of_mem_splitTop` — no piece is longer than the text.
-/

namespace Ebnf.Source

/-- The position of the first `target` outside literals, starting in the given mode. -/
def findPlainFrom? (target : Char) : Mode → List Char → Option Nat
  | _, [] => none
  | mode, c :: rest =>
    if mode = .plain ∧ c = target ∧ c ≠ '"' then some 0
    else (findPlainFrom? target (mode.next c) rest).map (· + 1)

/-- The position of the first `target` outside literals. Quotes belong to literals and are never
found. -/
def findPlain? (target : Char) (text : List Char) : Option Nat :=
  findPlainFrom? target .plain text

/-- Why a text cannot be split. The first closer that is wrong is reported before anything that is
left open. -/
inductive SplitFault where
  /-- A closer that does not answer the innermost open bracket. -/
  | unexpectedCloser (closer : Char)
  /-- A literal that is not closed. -/
  | openLiteral
  /-- A bracket that is not closed, the innermost one. -/
  | missingCloser (bracket : Bracket)
  deriving DecidableEq, Repr

/-- Whether a character separates: brackets and quotes have their own roles. -/
def separates (sep c : Char) : Bool :=
  c = sep && c ≠ '"' && (Bracket.ofOpener? c).isNone && (Bracket.ofCloser? c).isNone

/-- The pieces of a text, the first one apart, read on in the given mode and within the given open
brackets. -/
def splitFrom (sep : Char) :
    Mode → List Bracket → List Char → Except SplitFault (List Char × List (List Char))
  | .plain, [], [] => .ok ([], [])
  | .plain, b :: _, [] => .error (.missingCloser b)
  | _, _, [] => .error .openLiteral
  | .plain, opened, c :: rest =>
    if separates sep c = true ∧ opened = [] then
      (fun (piece, pieces) => ([], piece :: pieces)) <$> splitFrom sep .plain opened rest
    else
      match Bracket.track opened c with
      | none => .error (.unexpectedCloser c)
      | some opened =>
        (fun (piece, pieces) => (c :: piece, pieces)) <$>
          splitFrom sep (Mode.next .plain c) opened rest
  | mode, opened, c :: rest =>
    (fun (piece, pieces) => (c :: piece, pieces)) <$> splitFrom sep (mode.next c) opened rest

/-- The pieces between the separators that stand outside literals and brackets. There is always
at least one piece, and pieces may be empty. -/
def splitTop (sep : Char) (text : List Char) : Except SplitFault (List (List Char)) :=
  (fun (piece, pieces) => piece :: pieces) <$> splitFrom sep .plain [] text

/-- A mapped result is a result only if the one it was made from is. -/
theorem exists_of_map_eq_ok {ε α β : Type} {f : α → β} {x : Except ε α} {b : β}
    (h : f <$> x = .ok b) : ∃ a, x = .ok a ∧ f a = b := by
  cases x with
  | error e => cases h
  | ok a => exact ⟨a, rfl, Except.ok.inj h⟩

/-- The pieces and the separators between them make up the text. -/
theorem eq_join_of_splitFrom {sep : Char} {mode : Mode} {opened : List Bracket}
    {text piece : List Char} {pieces : List (List Char)}
    (h : splitFrom sep mode opened text = .ok (piece, pieces)) :
    text = piece ++ pieces.flatMap (sep :: ·) := by
  fun_induction splitFrom sep mode opened text generalizing piece pieces with
  | case1 => cases h; rfl
  | case2 | case3 | case5 => cases h
  | case4 opened c rest hsep ih =>
    obtain ⟨⟨p, ps⟩, hp, heq⟩ := exists_of_map_eq_ok h
    cases heq
    have hc : c = sep := by
      simp only [separates, Bool.and_eq_true, decide_eq_true_eq] at hsep
      exact hsep.1.1.1.1
    simp [hc, ih hp]
  | case6 _ _ _ _ _ _ ih | case7 _ _ _ _ _ ih =>
    obtain ⟨⟨p, ps⟩, hp, heq⟩ := exists_of_map_eq_ok h
    cases heq
    simp [ih hp]

/-- The pieces and the separators between them make up the text. -/
theorem eq_join_of_splitTop {sep : Char} {text : List Char} {pieces : List (List Char)}
    (h : splitTop sep text = .ok pieces) :
    ∃ first others, pieces = first :: others ∧ text = first ++ others.flatMap (sep :: ·) := by
  obtain ⟨⟨p, ps⟩, hp, heq⟩ := exists_of_map_eq_ok h
  exact ⟨p, ps, heq.symm, eq_join_of_splitFrom hp⟩

/-- No piece is longer than the text, so what is read in pieces comes to an end. -/
theorem length_le_of_mem_splitTop {sep : Char} {text piece : List Char}
    {pieces : List (List Char)} (h : splitTop sep text = .ok pieces) (hp : piece ∈ pieces) :
    piece.length ≤ text.length := by
  obtain ⟨first, others, rfl, rfl⟩ := eq_join_of_splitTop h
  rw [List.length_append]
  rcases List.mem_cons.1 hp with rfl | hp
  · omega
  · have : (sep :: piece).length ≤ (others.flatMap (sep :: ·)).length :=
      (List.sublist_flatten_of_mem (List.mem_map_of_mem hp)).length_le
    simp only [List.length_cons] at this
    omega

end Ebnf.Source
