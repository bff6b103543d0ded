import Ebnf.Match.Engine

/-!
# The applications in a rule

Matching a part of a rule applies other rules: those that its atoms refer to, a rule referred to
by name one level deeper and the rule of a bracket at the same level.  What the part does depends on
these applications alone, and it takes no more than there is if they do not.

## Main definitions

* `Match.Applies` — the applications that an atom makes.
* `Match.Outcome.Fits` — what was taken is not longer than the text.

## Main results

* `Match.evalAlternatives_congr` — what alternatives do depends on the applications in them alone.
* `Match.fits_applyRule` — **a rule takes no more than there is.**
-/

namespace Ebnf.Match

variable [Pattern.Engine]

/-- Matching the atom in a rule with `depth` further levels applies the rule with the name, with the
levels it may have. -/
inductive Applies (depth : Nat) : Atom → Nat → String → Prop
  /-- A reference goes one level deeper. -/
  | reference (name : String) : Applies depth (.reference name) depth name
  /-- The rule of a bracket stays at the level. -/
  | lifted (bracket : Bracket) (rule : String) :
    Applies depth (.lifted bracket rule) (depth + 1) rule

theorem Applies.reference?_eq {depth depth' : Nat} {atom : Atom} {name : String}
    (h : Applies depth atom depth' name) : atom.reference? = some name := by
  cases h with
  | reference => rfl
  | lifted => rfl

variable {apply apply' : Apply} {depth : Nat}

/-! ### Dependence on applications -/

theorem evalAtom_congr {atom : Atom}
    (h : ∀ depth' name, Applies depth atom depth' name → apply depth' name = apply' depth' name)
    (text : List Char) : evalAtom apply depth text atom = evalAtom apply' depth text atom := by
  cases atom with
  | terminal expected => rfl
  | pattern p => rfl
  | reference name => rw [evalAtom, evalAtom, h depth name (.reference name)]
  | lifted bracket rule =>
    have hrule := h (depth + 1) rule (.lifted bracket rule)
    cases bracket with
    | group => rw [evalAtom, evalAtom, hrule]
    | optional => rw [evalAtom, evalAtom, hrule]
    | repetition => rw [evalAtom, evalAtom, hrule]

theorem evalAtoms_congr : ∀ {atoms : Alternative},
    (∀ atom ∈ atoms, ∀ depth' name, Applies depth atom depth' name →
      apply depth' name = apply' depth' name) →
    ∀ text, evalAtoms apply depth atoms text = evalAtoms apply' depth atoms text := by
  intro atoms
  induction atoms with
  | nil => intro _ text; rfl
  | cons atom rest ih =>
    intro h text
    have hrest := ih fun a ha => h a (List.mem_cons_of_mem _ ha)
    rw [evalAtoms, evalAtoms, evalAtom_congr (h atom List.mem_cons_self)]
    simp only [hrest]

/-- What alternatives do depends on the applications in them alone. This lets one grammar stand for
another where these agree. -/
theorem evalAlternatives_congr : ∀ {alts : List Alternative},
    (∀ atom ∈ alts.flatten, ∀ depth' name, Applies depth atom depth' name →
      apply depth' name = apply' depth' name) →
    ∀ text, evalAlternatives apply depth alts text = evalAlternatives apply' depth alts text := by
  intro alts
  induction alts with
  | nil => intro _ text; rfl
  | cons alt rest ih =>
    intro h text
    rw [List.flatten_cons] at h
    have hrest := ih fun a ha => h a (List.mem_append_right _ ha)
    rw [evalAlternatives, evalAlternatives,
      evalAtoms_congr fun a ha => h a (List.mem_append_left _ ha)]
    simp only [hrest]

/-! ### What is taken -/

/-- What was taken, if anything, is not longer than the text. -/
def Outcome.Fits (o : Outcome) (text : List Char) : Prop :=
  ∀ span, o = .ok (some span) → span.length ≤ text.length

omit [Pattern.Engine] in
theorem length_append_le {a b : Span} {text : List Char} (ha : a.length ≤ text.length)
    (hb : b.length ≤ (a.after text).length) : (a ++ b).length ≤ text.length := by
  have hsum : (a ++ b).length = a.length + b.length := rfl
  rw [Span.after, List.length_drop] at hb
  omega

omit [Pattern.Engine] in
theorem length_repeated_le {once : List Char → Outcome} (honce : ∀ text, (once text).Fits text)
    {text : List Char} {span : Span} (h : repeated once text = .ok span) :
    span.length ≤ text.length := by
  -- what the first round takes and what the others take of the rest
  induction hn : text.length using Nat.strongRecOn generalizing text span with
  | ind n ih =>
    -- the three ways in which the first round can end
    rw [repeated] at h
    split at h
    · cases h
    · cases h
      exact Nat.zero_le _
    · next first hfirst =>
      split at h
      · next hlt =>
        split at h
        · cases h
        · next more hmore =>
          cases h
          exact hn ▸ length_append_le (honce text first hfirst) (ih _ (hn ▸ hlt) hmore rfl)
      · cases h
        exact Nat.zero_le _

variable (happly : ∀ depth name text, (apply depth name text).Fits text)

include happly

theorem fits_evalAtom (atom : Atom) (text : List Char) :
    (evalAtom apply depth text atom).Fits text := by
  intro span h
  cases atom with
  -- a terminal is a start of the text
  | terminal expected =>
    rw [evalAtom] at h
    split at h
    · next hpre =>
      cases h
      exact (List.isPrefixOf_iff_prefix.mp hpre).length_le
    · cases h
  -- that a match ends within the text is what is known of the engine
  | pattern p =>
    rw [evalAtom] at h
    obtain ⟨n, hn, rfl⟩ := Option.map_eq_some_iff.mp (Except.ok.inj h)
    exact Pattern.le_length_of_matchLength? hn
  -- a reference takes what its rule does
  | reference name =>
    rw [evalAtom] at h
    split at h
    · cases h
    · cases h
    · next taken htaken =>
      cases h
      exact happly depth name text taken htaken
  -- a bracket takes what its rule does, perhaps nothing, or what its rounds do
  | lifted bracket rule =>
    cases bracket with
    | group => exact happly (depth + 1) rule text span h
    | optional =>
      rw [evalAtom] at h
      split at h
      · cases h
      · cases h
        exact Nat.zero_le _
      · next taken htaken =>
        cases h
        exact happly (depth + 1) rule text _ htaken
    | repetition =>
      rw [evalAtom] at h
      split at h
      · cases h
      · next taken htaken =>
        cases h
        exact length_repeated_le (happly (depth + 1) rule) htaken

theorem fits_evalAtoms : ∀ (atoms : Alternative) (text : List Char),
    (evalAtoms apply depth atoms text).Fits text := by
  intro atoms
  induction atoms with
  | nil =>
    intro text span h
    cases h
    exact Nat.zero_le _
  | cons atom rest ih =>
    intro text span h
    rw [evalAtoms] at h
    split at h
    · cases h
    · cases h
    · next first hfirst =>
      split at h
      · cases h
      · cases h
      · -- the two atoms and the rest take one after the other
        next more hmore =>
        cases h
        exact length_append_le (fits_evalAtom happly atom text first hfirst)
          (ih (first.after text) more hmore)

theorem fits_evalAlternatives (alts : List Alternative) (text : List Char) :
    (evalAlternatives apply depth alts text).Fits text := by
  induction alts with
  | nil => intro span h; cases h
  | cons alt rest ih =>
    intro span h
    rw [evalAlternatives] at h
    split at h
    · cases h
    · exact ih span h
    · next taken htaken =>
      cases h
      exact fits_evalAtoms happly alt text _ htaken

omit happly

/-- **A rule takes no more than there is.** The induction is on the open applications, and every
part of a rule fits if the applications in it do. -/
theorem fits_applyRule (g : Grammar) : ∀ (nesting depth : Nat) (rule : String) (text : List Char),
    (applyRule g nesting depth rule text).Fits text := by
  intro nesting
  induction nesting with
  | zero =>
    intro depth rule text span h
    cases depth with
    | zero => cases h
    | succ depth => cases h
  | succ nesting ih =>
    intro depth rule text span h
    cases depth with
    | zero => cases h
    | succ depth =>
      rw [applyRule] at h
      split at h
      · cases h
      · next r _ => exact fits_evalAlternatives ih r.alts text span h

end Ebnf.Match
