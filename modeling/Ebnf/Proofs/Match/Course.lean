import Ebnf.Proofs.Match.Applications
import Mathlib.Logic.Relation

/-!
# The course of an application

An application of a rule makes others on its way: one for each reference and each bracket that it
comes to, and one for each round of a repetition.  It comes to an atom when those before it have
matched and the alternatives before have failed.  What gives up one of the applications gives up
the application that makes it, and nothing else does but its own levels and its own rule.

## Main definitions

* `Match.Application` — the application of a rule to what is left of a text.
* `Match.RoundAt`, `Match.AtomAt`, `Match.AtomAmong` — what the parts of a rule come to.
* `Match.AppliesAt` — where an atom applies a rule.
* `Grammar.Makes` — an application makes another.
* `Grammar.MakesWithin` — an application is made in the course of another.

## Main results

* `Grammar.Makes.outcome_eq_error` — what gives up an application gives up the one that makes it.
* `Grammar.exists_makes_of_outcome_eq_error` — **where an application is given up.**
-/

namespace Ebnf

variable [Pattern.Engine]

namespace Match

/-- The application of a rule to what is left of a text, when `nesting` more applications may be
open and `depth` more levels are left. -/
structure Application where
  /-- How many more applications may be open. -/
  nesting : Nat
  /-- How many more levels are left. -/
  depth : Nat
  /-- The name of the rule. -/
  rule : String
  /-- What is left of the text. -/
  text : List Char

/-- What the application comes to, in the grammar at hand. -/
def Application.outcome (g : Grammar) (a : Application) : Outcome :=
  applyRule g a.nesting a.depth a.rule a.text

/-! ### What is come to -/

/-- A repetition at `text` has a round at the second text. -/
inductive RoundAt (once : List Char → Outcome) : List Char → List Char → Prop
  /-- The first round is where the repetition is. -/
  | first (text : List Char) : RoundAt once text text
  /-- A round that takes something is followed by another. -/
  | next {text text' : List Char} {span : Span} (hround : once text = .ok (some span))
    (hlt : (span.after text).length < text.length) (h : RoundAt once (span.after text) text') :
    RoundAt once text text'

/-- Matching the atom at `text` applies the rule with the name, with the levels it may have, at the
second text. -/
inductive AppliesAt (apply : Apply) (depth : Nat) (text : List Char) :
    Atom → Nat → String → List Char → Prop
  /-- The rule that is referred to is applied where the reference is. -/
  | reference (name : String) : AppliesAt apply depth text (.reference name) depth name text
  /-- The rule of a group is applied where the group is. -/
  | group (rule : String) : AppliesAt apply depth text (.lifted .group rule) (depth + 1) rule text
  /-- The rule of an optional bracket is applied where the bracket is. -/
  | optional (rule : String) :
    AppliesAt apply depth text (.lifted .optional rule) (depth + 1) rule text
  /-- The rule of a repetition is applied in every round. -/
  | repetition {rule : String} {text' : List Char}
    (h : RoundAt (apply (depth + 1) rule) text text') :
    AppliesAt apply depth text (.lifted .repetition rule) (depth + 1) rule text'

/-- Matching the atoms one after the other at a text comes to the atom at the second text. -/
inductive AtomAt (apply : Apply) (depth : Nat) :
    Alternative → List Char → Atom → List Char → Prop
  /-- The first atom is come to at once. -/
  | head (atom : Atom) (rest : Alternative) (text : List Char) :
    AtomAt apply depth (atom :: rest) text atom text
  /-- The others are come to if the first one matches, after what it takes. -/
  | tail {first atom : Atom} {rest : Alternative} {text text' : List Char} {span : Span}
    (hfirst : evalAtom apply depth text first = .ok (some span))
    (h : AtomAt apply depth rest (span.after text) atom text') :
    AtomAt apply depth (first :: rest) text atom text'

/-- Matching the alternatives at `text` comes to the atom at the second text. -/
inductive AtomAmong (apply : Apply) (depth : Nat) (text : List Char) :
    List Alternative → Atom → List Char → Prop
  /-- The first alternative comes to it. -/
  | head {alt : Alternative} {atom : Atom} {text' : List Char} (rest : List Alternative)
    (h : AtomAt apply depth alt text atom text') :
    AtomAmong apply depth text (alt :: rest) atom text'
  /-- The first alternative fails, and the others come to it. -/
  | tail {alt : Alternative} {rest : List Alternative} {atom : Atom} {text' : List Char}
    (halt : evalAtoms apply depth alt text = .ok none)
    (h : AtomAmong apply depth text rest atom text') :
    AtomAmong apply depth text (alt :: rest) atom text'

section

variable {once : List Char → Outcome} {apply : Apply} {depth depth' : Nat} {atom : Atom}
  {atoms : Alternative} {alts : List Alternative} {name : String} {text text' : List Char}
  {stop : Stop}

theorem AppliesAt.applies (h : AppliesAt apply depth text atom depth' name text') :
    Applies depth atom depth' name := by
  cases h with
  | reference => exact .reference name
  | group => exact .lifted .group name
  | optional => exact .lifted .optional name
  | repetition => exact .lifted .repetition name

theorem AtomAt.mem (h : AtomAt apply depth atoms text atom text') : atom ∈ atoms := by
  induction h with
  | head => exact List.mem_cons_self
  | tail _ _ ih => exact List.mem_cons_of_mem _ ih

theorem AtomAmong.mem (h : AtomAmong apply depth text alts atom text') :
    atom ∈ alts.flatten := by
  induction h with
  | head rest h => exact List.mem_append_left _ h.mem
  | tail _ _ ih => exact List.mem_append_right _ ih

/-! ### Places in a text -/

omit [Pattern.Engine] in
theorem RoundAt.isSuffix (h : RoundAt once text text') : text' <:+ text := by
  induction h with
  | first => exact List.suffix_rfl
  | next _ _ _ ih => exact ih.trans (List.drop_suffix _ _)

theorem AppliesAt.isSuffix (h : AppliesAt apply depth text atom depth' name text') :
    text' <:+ text := by
  cases h with
  | reference => exact List.suffix_rfl
  | group => exact List.suffix_rfl
  | optional => exact List.suffix_rfl
  | repetition h => exact h.isSuffix

theorem AtomAt.isSuffix (h : AtomAt apply depth atoms text atom text') : text' <:+ text := by
  induction h with
  | head => exact List.suffix_rfl
  | tail _ _ ih => exact ih.trans (List.drop_suffix _ _)

theorem AtomAmong.isSuffix (h : AtomAmong apply depth text alts atom text') :
    text' <:+ text := by
  induction h with
  | head _ h => exact h.isSuffix
  | tail _ _ ih => exact ih

/-! ### Stops on the way -/

omit [Pattern.Engine] in
theorem RoundAt.repeated_eq_error (h : RoundAt once text text') (hstop : once text' = .error stop) :
    repeated once text = .error stop := by
  induction h with
  | first => rw [repeated, hstop]
  | next hround hlt _ ih =>
    rw [repeated, hround]
    dsimp only
    rw [if_pos hlt, ih hstop]

theorem AppliesAt.evalAtom_eq_error (h : AppliesAt apply depth text atom depth' name text')
    (hstop : apply depth' name text' = .error stop) :
    evalAtom apply depth text atom = .error stop := by
  cases h with
  | reference => rw [evalAtom, hstop]
  | group => exact hstop
  | optional => rw [evalAtom, hstop]
  | repetition h => rw [evalAtom, h.repeated_eq_error hstop]

theorem AtomAt.evalAtoms_eq_error (h : AtomAt apply depth atoms text atom text')
    (hstop : evalAtom apply depth text' atom = .error stop) :
    evalAtoms apply depth atoms text = .error stop := by
  induction h with
  | head => rw [evalAtoms, hstop]
  | tail hfirst _ ih =>
    rw [evalAtoms, hfirst]
    dsimp only
    rw [ih hstop]

theorem AtomAmong.evalAlternatives_eq_error (h : AtomAmong apply depth text alts atom text')
    (hstop : evalAtom apply depth text' atom = .error stop) :
    evalAlternatives apply depth alts text = .error stop := by
  induction h with
  | head _ h => rw [evalAlternatives, h.evalAtoms_eq_error hstop]
  | tail halt _ ih =>
    rw [evalAlternatives, halt]
    exact ih hstop

/-! ### Where a stop comes from -/

omit [Pattern.Engine] in
/-- A repetition is given up for one of its rounds. -/
theorem exists_roundAt_of_repeated_eq_error (h : repeated once text = .error stop) :
    ∃ text', RoundAt once text text' ∧ once text' = .error stop := by
  -- induction on the length of the text, which every round but the last reduces
  induction hn : text.length using Nat.strongRecOn generalizing text with
  | ind n ih =>
    -- the first round is given up, or a later one is
    rw [repeated] at h
    split at h
    · next honce =>
      cases h
      exact ⟨text, .first text, honce⟩
    · cases h
    · next hround =>
      split at h
      · next hlt =>
        split at h
        · next hmore =>
          cases h
          obtain ⟨text', hat, hstop⟩ := ih _ (hn ▸ hlt) hmore rfl
          exact ⟨text', .next hround hlt hat, hstop⟩
        · cases h
      · cases h

/-- An atom is given up for an application that it makes. -/
theorem exists_appliesAt_of_evalAtom_eq_error (h : evalAtom apply depth text atom = .error stop) :
    ∃ depth' name text', AppliesAt apply depth text atom depth' name text' ∧
      apply depth' name text' = .error stop := by
  cases atom with
  -- a terminal and a pattern make no applications
  | terminal expected => cases h
  | pattern p => cases h
  -- a reference makes one, on the next level
  | reference name =>
    rw [evalAtom] at h
    split at h
    · next happly =>
      cases h
      exact ⟨depth, name, text, .reference name, happly⟩
    · cases h
    · cases h
  -- a bracket makes one, or one in every round, on the level at hand
  | lifted bracket rule =>
    cases bracket with
    | group => exact ⟨depth + 1, rule, text, .group rule, h⟩
    | optional =>
      rw [evalAtom] at h
      split at h
      · next happly =>
        cases h
        exact ⟨depth + 1, rule, text, .optional rule, happly⟩
      · cases h
      · cases h
    | repetition =>
      rw [evalAtom] at h
      split at h
      · next hrepeated =>
        cases h
        obtain ⟨text', hat, happly⟩ := exists_roundAt_of_repeated_eq_error hrepeated
        exact ⟨depth + 1, rule, text', .repetition hat, happly⟩
      · cases h

theorem exists_atomAt_of_evalAtoms_eq_error : ∀ {atoms : Alternative} {text : List Char},
    evalAtoms apply depth atoms text = .error stop →
    ∃ atom text', AtomAt apply depth atoms text atom text' ∧
      evalAtom apply depth text' atom = .error stop := by
  intro atoms
  induction atoms with
  | nil => intro text h; cases h
  | cons first rest ih =>
    intro text h
    -- the first atom is given up, or one of the others where it begins
    rw [evalAtoms] at h
    split at h
    · next hfirst =>
      cases h
      exact ⟨first, text, .head first rest text, hfirst⟩
    · cases h
    · next hfirst =>
      split at h
      · next hrest =>
        cases h
        obtain ⟨atom, text', hat, hstop⟩ := ih hrest
        exact ⟨atom, text', .tail hfirst hat, hstop⟩
      · cases h
      · cases h

/-- Alternatives are given up for an atom that they come to. -/
theorem exists_atomAmong_of_evalAlternatives_eq_error {alts : List Alternative}
    (h : evalAlternatives apply depth alts text = .error stop) :
    ∃ atom text', AtomAmong apply depth text alts atom text' ∧
      evalAtom apply depth text' atom = .error stop := by
  induction alts with
  | nil => cases h
  | cons alt rest ih =>
    rw [evalAlternatives] at h
    split at h
    · next halt =>
      cases h
      obtain ⟨atom, text', hat, hstop⟩ := exists_atomAt_of_evalAtoms_eq_error halt
      exact ⟨atom, text', .head rest hat, hstop⟩
    · next halt =>
      obtain ⟨atom, text', hat, hstop⟩ := ih h
      exact ⟨atom, text', .tail halt hat, hstop⟩
    · cases h

end

end Match

/-! ### Applications that make others -/

open Match (Application Applies AppliesAt AtomAmong applyRule)

/-- The first application makes the second for the atom. -/
inductive Grammar.MakesFor (g : Grammar) (atom : Atom) : Application → Application → Prop
  /-- The rule that is applied comes to the atom. -/
  | of_rule {nesting depth depth' : Nat} {name name' : String} {text place text' : List Char}
    {r : Rule} (hfind : g.find? name = some r)
    (hat : AtomAmong (applyRule g nesting) depth text r.alts atom place)
    (happlies : AppliesAt (applyRule g nesting) depth place atom depth' name' text') :
    Grammar.MakesFor g atom ⟨nesting + 1, depth + 1, name, text⟩ ⟨nesting, depth', name', text'⟩

/-- The first application makes the second: some atom of its alternatives is come to and applies the
rule. -/
def Grammar.Makes (g : Grammar) (a b : Application) : Prop := ∃ atom, g.MakesFor atom a b

/-- The second application is made in the course of the first. -/
abbrev Grammar.MakesWithin (g : Grammar) : Application → Application → Prop :=
  Relation.TransGen g.Makes

namespace Grammar

variable {g : Grammar} {a b : Application} {stop : Match.Stop}

theorem Makes.nesting_eq (h : g.Makes a b) : a.nesting = b.nesting + 1 := by
  obtain ⟨_, ⟨⟩⟩ := h
  rfl

theorem Makes.isSuffix (h : g.Makes a b) : b.text <:+ a.text := by
  obtain ⟨_, ⟨_, hat, happlies⟩⟩ := h
  exact happlies.isSuffix.trans hat.isSuffix

/-- What gives up an application gives up the one that makes it, since no part of a rule recovers
from that. -/
theorem Makes.outcome_eq_error (h : g.Makes a b) (hstop : b.outcome g = .error stop) :
    a.outcome g = .error stop := by
  obtain ⟨_, ⟨hfind, hat, happlies⟩⟩ := h
  rw [Application.outcome, applyRule, hfind]
  exact hat.evalAlternatives_eq_error (happlies.evalAtom_eq_error hstop)

/-- What gives up an application gives up every one in the course of which it is made. -/
theorem outcome_eq_error_of_reflTransGen (h : Relation.ReflTransGen g.Makes a b)
    (hstop : b.outcome g = .error stop) : a.outcome g = .error stop := by
  induction h using Relation.ReflTransGen.head_induction_on with
  | refl => exact hstop
  | head hmakes _ ih => exact hmakes.outcome_eq_error ih

/-- **Where an application is given up.**  It has no level left, too many are open, its rule is
missing, or an application that it makes is given up. -/
theorem exists_makes_of_outcome_eq_error (h : a.outcome g = .error stop) :
    (a.depth = 0 ∧ stop = .tooDeep a.rule) ∨ (a.nesting = 0 ∧ stop = .tooNested) ∨
      (g.find? a.rule = none ∧ stop = .missingRule a.rule) ∨
      ∃ atom b, g.MakesFor atom a b ∧ b.outcome g = .error stop := by
  -- without levels or without room the application itself is given up
  obtain ⟨nesting, depth, name, text⟩ := a
  match nesting, depth with
  | 0, 0 | _ + 1, 0 =>
    cases h
    exact Or.inl ⟨rfl, rfl⟩
  | 0, _ + 1 =>
    cases h
    exact Or.inr (Or.inl ⟨rfl, rfl⟩)
  -- otherwise the rule is missing, or an alternative of it is given up
  | nesting + 1, depth + 1 =>
    rw [Application.outcome, applyRule] at h
    split at h
    · next hfind =>
      cases h
      exact Or.inr (Or.inr (Or.inl ⟨hfind, rfl⟩))
    · next r hfind =>
      obtain ⟨atom, place, hat, hatom⟩ := Match.exists_atomAmong_of_evalAlternatives_eq_error h
      obtain ⟨depth', name', text', happlies, hstop⟩ :=
        Match.exists_appliesAt_of_evalAtom_eq_error hatom
      exact Or.inr (Or.inr (Or.inr ⟨atom, _, .of_rule hfind hat happlies, hstop⟩))

end Grammar

end Ebnf
