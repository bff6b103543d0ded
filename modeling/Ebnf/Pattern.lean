import Ebnf.Pattern.Engine

/-!
# Patterns

A pattern is a source text together with what the engine compiles it to. A source that the engine
refuses is no pattern.

## Main definitions

* `Pattern` — the source and what it is compiled to.
* `Pattern.ofSource` — the pattern of a source, or what is wrong with it.
* `Pattern.matchLength?` — how many characters a pattern takes from the start of a text.

## Main results

* `Pattern.le_length_of_matchLength?` — a match ends within the text.
-/

namespace Ebnf

variable [Pattern.Engine]

/-- A source text that the engine compiles, with what it compiles to. Patterns exist only for
sources that are not refused. -/
structure Pattern where
  /-- The text. -/
  source : String
  /-- What it is compiled to. -/
  matcher : Pattern.Matcher
  /-- The engine compiles the text to this. -/
  compile_source : Pattern.Engine.compile source = .ok matcher

namespace Pattern

/-- A pattern is determined by its source, since the engine compiles a source in one way. -/
theorem eq_of_source_eq {p q : Pattern} (h : p.source = q.source) : p = q := by
  obtain ⟨s, m, hm⟩ := p
  obtain ⟨s', m', hm'⟩ := q
  obtain rfl : s = s' := h
  obtain rfl : m = m' := Except.ok.inj (hm.symm.trans hm')
  rfl

instance : DecidableEq Pattern := fun p q =>
  decidable_of_iff (p.source = q.source) ⟨eq_of_source_eq, fun h => h ▸ rfl⟩

instance : Repr Pattern := ⟨fun p => reprPrec p.source⟩

/-- The pattern of a source, or the report of the engine that refuses it. -/
def ofSource (source : String) : Except Fault Pattern :=
  match h : Engine.compile source with
  | .ok matcher => .ok ⟨source, matcher, h⟩
  | .error fault => .error fault

/-- How many characters the pattern takes from the start of a text, if it matches there. -/
def matchLength? (p : Pattern) (text : List Char) : Option Nat := p.matcher.matchLength? text

/-- A match ends within the text. This is all that is assumed of what a pattern takes. -/
theorem le_length_of_matchLength? {p : Pattern} {text : List Char} {n : Nat}
    (h : p.matchLength? text = some n) : n ≤ text.length :=
  p.matcher.le_length_of_match h

theorem source_of_ofSource {source : String} {p : Pattern} (h : ofSource source = .ok p) :
    p.source = source := by
  unfold ofSource at h
  split at h
  · cases h; rfl
  · cases h

/-- A source that the engine compiles is that of a pattern. -/
theorem ofSource_of_compile {source : String} {matcher : Matcher}
    (h : Engine.compile source = .ok matcher) : ofSource source = .ok ⟨source, matcher, h⟩ := by
  unfold ofSource
  split
  · next matcher' h' =>
    obtain rfl : matcher = matcher' := Except.ok.inj (h.symm.trans h')
    rfl
  · next fault h' => cases h.symm.trans h'

end Pattern

end Ebnf
