import Ebnf.Match
import Ebnf.Proofs.Match.Applications

/-!
# Matching by positions

The same matching with the whole text at hand: an application begins at a position and ends at one,
a pattern gets what follows the position, and the value of a node is cut out of the text.  The nodes
of an alternative are collected on the way, and depth is counted upwards to the limit.  It does what
the match of the rest of the text does, so what stands before a position has no influence on what
follows.

## Main definitions

* `Positional.Applied`, `Positional.Cursor` — what an application gives, and where an alternative
  has got to.
* `Positional.repeated`, `Positional.evalAtom`, `Positional.evalAtoms`,
  `Positional.evalAlternatives`, `Positional.applyRule` — the match of the parts of a rule, and of
  the rule.
* `Positional.matchRule` — the match of a text against a rule.

## Main results

* `Positional.applyRule_eq` — an application at a position is one to the rest of the text.
* `Grammar.matchWithin_eq_positional` — matching by positions is matching.
* `Positional.applyRule_append` — **what was taken before has no influence.**
-/

namespace Ebnf

namespace Positional

open Match (Stop Span)

/-! ### Positions -/

/-- What an application gives: whether the rule matches, how far it took the text, and its node. -/
structure Applied where
  /-- Whether the rule matches. -/
  matched : Bool
  /-- The position behind what the rule took; where the application began if it took nothing. -/
  stop : Nat
  /-- The node of the rule. -/
  node : Tree

/-- Where an alternative has got to: a position in the text, and the nodes made on the way. -/
structure Cursor where
  /-- The position in the text. -/
  pos : Nat
  /-- The nodes made on the way. -/
  nodes : List Tree

/-- How a rule is applied at a depth and a position. -/
abbrev Apply := (depth : Int) → (rule : String) → (pos : Nat) → Except Stop Applied

/-- Applies again and again in a text of the given size, until an application fails or ends where it
began, which then leaves nothing behind. -/
def repeated (size : Nat) (once : Nat → Except Stop Applied) (c : Cursor) : Except Stop Cursor :=
  match once c.pos with
  | .error stop => .error stop
  | .ok a =>
    if a.matched = false ∨ a.stop = c.pos then .ok c
    -- no application ends before it began or behind the text
    else if c.pos < a.stop ∧ a.stop ≤ size then
      repeated size once ⟨a.stop, c.nodes ++ a.node.children⟩
    else .ok c
termination_by size - c.pos

/-! ### Spans behind a position -/

/-- What an application at a position gives if a rule took the span from the text behind it. -/
def Applied.of (rule : String) (rest : List Char) (pos : Nat) : Option Span → Applied
  | none => ⟨false, pos, .node rule "" []⟩
  | some span => ⟨true, pos + span.length, span.toTree rule rest⟩

/-- The application of a text to which so many characters have been added in front. -/
def Applied.shift (a : Applied) (n : Nat) : Applied := { a with stop := a.stop + n }

theorem Applied.shift_of (rule : String) (rest : List Char) (n : Nat) (taken : Option Span) :
    (Applied.of rule rest 0 taken).shift n = Applied.of rule rest n taken := by
  rcases taken with _ | span
  · simp only [of, shift, Nat.zero_add]
  · have hstop : 0 + span.length + n = n + span.length := by omega
    simp only [of, shift, hstop]

/-- The cursor behind a span: as many characters further on, with its nodes behind those that are
there. -/
def Cursor.behind (c : Cursor) (span : Span) : Cursor :=
  ⟨c.pos + span.length, c.nodes ++ span.children⟩

theorem Cursor.behind_nothing (c : Cursor) : c.behind .nothing = c := by
  rw [behind, Span.nothing, List.append_nil, Nat.add_zero]

theorem Cursor.behind_append (c : Cursor) (a b : Span) :
    c.behind (a ++ b) = (c.behind a).behind b := by
  change Cursor.mk (c.pos + (a.length + b.length)) (c.nodes ++ (a.children ++ b.children)) = _
  rw [behind, behind, Nat.add_assoc, List.append_assoc]

theorem Cursor.drop_behind (c : Cursor) (span : Span) (text : List Char) :
    text.drop (c.behind span).pos = span.after (text.drop c.pos) :=
  List.drop_drop.symm

/-- A span of what is behind the cursor leaves it within the text. -/
theorem Cursor.behind_le {c : Cursor} {span : Span} {text : List Char} (hc : c.pos ≤ text.length)
    (hspan : span.length ≤ (text.drop c.pos).length) : (c.behind span).pos ≤ text.length := by
  rw [List.length_drop] at hspan
  change c.pos + span.length ≤ text.length
  omega

/-- Applying at a position of the text is applying to the rest behind it, with so many levels. -/
def AppliesRest (text : List Char) (once : String → Nat → Except Stop Applied)
    (apply : String → List Char → Match.Outcome) : Prop :=
  ∀ rule pos, pos ≤ text.length →
    once rule pos = (apply rule (text.drop pos)).map (Applied.of rule (text.drop pos) pos)

/-! ### Applications at positions -/

variable [Pattern.Engine]

/-- Matches an atom of a rule that is applied at the depth. -/
def evalAtom (apply : Apply) (text : List Char) (depth : Int) (c : Cursor) :
    Atom → Except Stop (Option Cursor)
  | .terminal expected =>
    .ok (if expected.toList.isPrefixOf (text.drop c.pos) then
      some ⟨c.pos + expected.length, c.nodes⟩ else none)
  | .pattern p => .ok ((p.matchLength? (text.drop c.pos)).map (⟨c.pos + ·, c.nodes⟩))
  | .reference name =>
    match apply (depth + 1) name c.pos with
    | .error stop => .error stop
    | .ok a => .ok (if a.matched then some ⟨a.stop, c.nodes ++ [a.node]⟩ else none)
  | .lifted .group rule =>
    match apply depth rule c.pos with
    | .error stop => .error stop
    | .ok a => .ok (if a.matched then some ⟨a.stop, c.nodes ++ a.node.children⟩ else none)
  | .lifted .optional rule =>
    match apply depth rule c.pos with
    | .error stop => .error stop
    | .ok a => .ok (some (if a.matched then ⟨a.stop, c.nodes ++ a.node.children⟩ else c))
  | .lifted .repetition rule =>
    match repeated text.length (apply depth rule) c with
    | .error stop => .error stop
    | .ok c => .ok (some c)

/-- Matches atoms one after the other, moving the cursor from each to the next. -/
def evalAtoms (apply : Apply) (text : List Char) (depth : Int) :
    Alternative → Cursor → Except Stop (Option Cursor)
  | [], c => .ok (some c)
  | atom :: rest, c =>
    match evalAtom apply text depth c atom with
    | .error stop => .error stop
    | .ok none => .ok none
    | .ok (some c) => evalAtoms apply text depth rest c

/-- Matches the first alternative that matches.  Each begins at the position without nodes. -/
def evalAlternatives (apply : Apply) (text : List Char) (depth : Int) (pos : Nat) :
    List Alternative → Except Stop (Option Cursor)
  | [] => .ok none
  | alt :: rest =>
    match evalAtoms apply text depth alt ⟨pos, []⟩ with
    | .error stop => .error stop
    | .ok none => evalAlternatives apply text depth pos rest
    | .ok (some c) => .ok (some c)

/-- Applies a rule at a depth below the limit when `nesting` more applications may be open. -/
def applyRule (g : Grammar) (limit : Int) (text : List Char) : (nesting : Nat) → Apply
  | nesting, depth, rule, pos =>
    if limit ≤ depth then .error (.tooDeep rule)
    else
      match nesting with
      | 0 => .error .tooNested
      | nesting + 1 =>
        match g.find? rule with
        | none => .error (.missingRule rule)
        | some r =>
          match evalAlternatives (applyRule g limit text nesting) text depth pos r.alts with
          | .error stop => .error stop
          | .ok none => .ok ⟨false, pos, .node rule "" []⟩
          | .ok (some c) =>
            .ok ⟨true, c.pos, .node rule (String.ofList ((text.take c.pos).drop pos)) c.nodes⟩

/-- Matches a text against a rule from its start, with at most `maxDepth` levels. -/
def matchRule (g : Grammar) (nesting : Nat) (rule text : String) (maxDepth : Int) :
    Except MatchFault MatchResult :=
  if maxDepth < 1 then .error (.badLimit maxDepth)
  else if !g.contains rule then .error (.unknownRule rule)
  else
    match applyRule g maxDepth text.toList nesting 0 rule 0 with
    | .error (.tooDeep name) => .error (.tooDeep name maxDepth)
    | .error .tooNested => .error (.tooDeep rule maxDepth)
    | .error (.missingRule name) => .error (.missingRule name)
    | .ok a => .ok ⟨a.matched, String.ofList (text.toList.drop a.stop), a.node⟩

/-! ### The rest of the text -/

section

variable {text : List Char} {applyAt : Apply} {apply : Match.Apply} {depth : Int} {levels : Nat}
  (hfits : ∀ depth rule text, (apply depth rule text).Fits text)
  (hreference : AppliesRest text (applyAt (depth + 1)) (apply levels))
  (hlifted : AppliesRest text (applyAt depth) (apply (levels + 1)))

omit [Pattern.Engine] in
include hfits hlifted in
theorem repeated_eq (rule : String) {c : Cursor} (hc : c.pos ≤ text.length) :
    repeated text.length (applyAt depth rule) c
      = (Match.repeated (apply (levels + 1) rule) (text.drop c.pos)).map c.behind := by
  -- induction on what is left of the text, which every round but the last reduces
  induction hn : text.length - c.pos using Nat.strongRecOn generalizing c with
  | ind n ih =>
    rw [repeated, Match.repeated, hlifted rule c.pos hc]
    -- a round that fails or takes nothing leaves the cursor where it is
    rcases hround : apply (levels + 1) rule (text.drop c.pos) with stop | _ | span
    · rfl
    · exact congrArg Except.ok c.behind_nothing.symm
    · have hspan := hfits _ _ _ span hround
      have hover := Cursor.behind_le hc hspan
      have hstop : (c.behind span).pos = c.pos + span.length := rfl
      have hafter : (span.after (text.drop c.pos)).length = text.length - c.pos - span.length := by
        rw [Span.after, List.length_drop, List.length_drop]
      rw [List.length_drop] at hspan ⊢
      dsimp only [Except.map, Applied.of]
      rw [hafter]
      -- a round ends where it began just when it leaves as much of the text
      by_cases hzero : span.length = 0
      · rw [if_pos (by simp [hzero]), if_neg (by omega)]
        exact congrArg Except.ok c.behind_nothing.symm
      · rw [if_neg (by simp [hzero]), if_pos (by omega), if_pos (by omega)]
        have hrest := ih (text.length - (c.behind span).pos) (by omega) hover rfl
        rw [Cursor.drop_behind] at hrest
        refine hrest.trans ?_
        rcases Match.repeated (apply (levels + 1) rule) (span.after (text.drop c.pos)) with _ | more
        · rfl
        · exact congrArg Except.ok (c.behind_append span more).symm

include hfits hreference hlifted

theorem evalAtom_eq {c : Cursor} (hc : c.pos ≤ text.length) (atom : Atom) :
    evalAtom applyAt text depth c atom
      = (Match.evalAtom apply levels (text.drop c.pos) atom).map (·.map c.behind) := by
  cases atom with
  | terminal expected =>
    -- a terminal moves the cursor behind itself
    rw [evalAtom, Match.evalAtom]
    split
    · simp only [Except.map, Option.map_some, Cursor.behind, List.append_nil]
    · rfl
  | pattern p =>
    rw [evalAtom, Match.evalAtom]
    rcases p.matchLength? (text.drop c.pos) with _ | n
    · rfl
    · simp only [Except.map, Option.map_some, Cursor.behind, List.append_nil]
  -- an application gives a node and the position behind it
  | reference name =>
    rw [evalAtom, Match.evalAtom, hreference name c.pos hc]
    rcases apply levels name (text.drop c.pos) with stop | _ | span <;> rfl
  | lifted bracket rule =>
    -- of the node of a bracket only the children are kept
    cases bracket with
    | group =>
      rw [evalAtom, Match.evalAtom, hlifted rule c.pos hc]
      rcases apply (levels + 1) rule (text.drop c.pos) with stop | _ | span <;> rfl
    | optional =>
      rw [evalAtom, Match.evalAtom, hlifted rule c.pos hc]
      rcases apply (levels + 1) rule (text.drop c.pos) with stop | _ | span
      · rfl
      · exact congrArg (fun c => Except.ok (some c)) c.behind_nothing.symm
      · rfl
    | repetition =>
      rw [evalAtom, Match.evalAtom, repeated_eq hfits hlifted rule hc]
      rcases Match.repeated (apply (levels + 1) rule) (text.drop c.pos) with stop | span <;> rfl

theorem evalAtoms_eq : ∀ (atoms : Alternative) {c : Cursor}, c.pos ≤ text.length →
    evalAtoms applyAt text depth atoms c
      = (Match.evalAtoms apply levels atoms (text.drop c.pos)).map (·.map c.behind) := by
  intro atoms
  induction atoms with
  | nil => exact fun {c} _ => congrArg (fun c => Except.ok (some c)) c.behind_nothing.symm
  | cons atom rest ih =>
    intro c hc
    rw [evalAtoms, Match.evalAtoms, evalAtom_eq hfits hreference hlifted hc]
    rcases hatom : Match.evalAtom apply levels (text.drop c.pos) atom with stop | _ | span
    · rfl
    · rfl
    · -- the other atoms begin where the first one ended
      have hspan := Match.fits_evalAtom hfits atom _ span hatom
      have hrest := ih (Cursor.behind_le hc hspan)
      rw [Cursor.drop_behind] at hrest
      refine hrest.trans ?_
      dsimp only
      rcases Match.evalAtoms apply levels rest (span.after (text.drop c.pos)) with _ | _ | more
      · rfl
      · rfl
      · exact congrArg (fun c => Except.ok (some c)) (c.behind_append span more).symm

theorem evalAlternatives_eq {pos : Nat} (hpos : pos ≤ text.length) (alts : List Alternative) :
    evalAlternatives applyAt text depth pos alts
      = (Match.evalAlternatives apply levels alts (text.drop pos)).map
        (·.map (Cursor.behind ⟨pos, []⟩)) := by
  induction alts with
  | nil => rfl
  | cons alt rest ih =>
    rw [evalAlternatives, Match.evalAlternatives,
      evalAtoms_eq hfits hreference hlifted alt (c := ⟨pos, []⟩) hpos]
    rcases Match.evalAtoms apply levels alt (text.drop pos) with stop | _ | span
    · rfl
    · exact ih
    · rfl

end

/-- An application at a position is one to the rest of the text, with the levels up to the limit. -/
theorem applyRule_eq (g : Grammar) (limit : Int) (text : List Char) :
    ∀ (nesting : Nat) (depth : Int), AppliesRest text (applyRule g limit text nesting depth)
      (Match.applyRule g nesting (limit - depth).toNat) := by
  intro nesting
  induction nesting with
  -- no more applications may be open, so only the limit remains to be compared
  | zero =>
    intro depth rule pos _
    rw [applyRule]
    split
    · next hdepth =>
      rw [Int.toNat_eq_zero.mpr (by omega)]
      rfl
    · next hdepth =>
      obtain ⟨levels, hlevels⟩ : ∃ levels, (limit - depth).toNat = levels + 1 :=
        Nat.exists_eq_succ_of_ne_zero (by omega)
      rw [hlevels]
      rfl
  | succ nesting ih =>
    intro depth rule pos hpos
    rw [applyRule]
    -- at the limit there is no level left
    split
    · next hdepth =>
      rw [Int.toNat_eq_zero.mpr (by omega)]
      rfl
    · next hdepth =>
      obtain ⟨levels, hlevels⟩ : ∃ levels, (limit - depth).toNat = levels + 1 :=
        Nat.exists_eq_succ_of_ne_zero (by omega)
      -- a reference has one level less, and a bracket as many
      have hreference := ih (depth + 1)
      have hlifted := ih depth
      rw [show (limit - (depth + 1)).toNat = levels by omega] at hreference
      rw [hlevels] at hlifted ⊢
      rw [Match.applyRule]
      -- from here on both go through the alternatives of the same rule
      rcases g.find? rule with _ | r
      · rfl
      · dsimp only
        rw [evalAlternatives_eq (Match.fits_applyRule g nesting) hreference hlifted hpos]
        rcases Match.evalAlternatives (Match.applyRule g nesting) levels r.alts (text.drop pos)
          with stop | _ | span
        · rfl
        · rfl
        · have hvalue : (text.take (pos + span.length)).drop pos
              = span.covered (text.drop pos) := by
            rw [List.drop_take, Nat.add_sub_cancel_left, Span.covered]
          exact congrArg (fun value => Except.ok (Applied.mk true (pos + span.length)
            (.node rule (String.ofList value) span.children))) hvalue

/-- **What was taken before has no influence.**  Applied behind a text, a rule does what it does at
the start of the text that follows: both applications stop for the same reason, or they have the
same success and the same node, and the ends are as far apart as the beginnings.  That is also what
the rule does where the text that follows is all there is to match. -/
theorem applyRule_append (g : Grammar) (limit : Int) (nesting : Nat) (depth : Int) (rule : String)
    (u v : List Char) :
    applyRule g limit (u ++ v) nesting depth rule u.length
        = (applyRule g limit v nesting depth rule 0).map (·.shift u.length) ∧
      applyRule g limit (u ++ v) nesting depth rule u.length
        = (Match.applyRule g nesting (limit - depth).toNat rule v).map
          (Applied.of rule v u.length) := by
  have hbehind := applyRule_eq g limit (u ++ v) nesting depth rule u.length
    (by rw [List.length_append]; exact Nat.le_add_right _ _)
  have hstart := applyRule_eq g limit v nesting depth rule 0 (Nat.zero_le _)
  rw [List.drop_left] at hbehind
  rw [List.drop_zero] at hstart
  refine ⟨?_, hbehind⟩
  rw [hbehind, hstart]
  rcases Match.applyRule g nesting (limit - depth).toNat rule v with stop | taken
  · rfl
  · exact congrArg Except.ok (Applied.shift_of rule v u.length taken).symm

end Positional

/-- Matching by positions is matching: with the text kept whole and a position moved along it, the
result is the same. -/
theorem Grammar.matchWithin_eq_positional [Pattern.Engine] (g : Grammar) (nesting : Nat)
    (rule input : String) (maxDepth : Int) :
    g.matchWithin nesting rule input maxDepth
      = Positional.matchRule g nesting rule input maxDepth := by
  rw [matchWithin, Positional.matchRule,
    Positional.applyRule_eq g maxDepth input.toList nesting 0 rule 0 (Nat.zero_le _),
    List.drop_zero, Int.sub_zero]
  rcases Match.applyRule g nesting maxDepth.toNat rule input.toList with stop | _ | span
  · cases stop <;> rfl
  · rfl
  · simp only [Except.map, Positional.Applied.of, resultOf, Match.Span.after, Nat.zero_add]

end Ebnf
