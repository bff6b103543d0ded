import Ebnf.Proofs.Description.Printing
import Ebnf.Proofs.Match.Derivation

/-!
# Brackets around references

When the written form of a grammar is read back, a bracket has become a bracket around the name of
its rule, which is now the rule of a statement.  So applying the bracket goes through a rule that
does nothing but refer to another one, and what was on one level is on the next.  A match in one
grammar may come to an end where that in the other is given up, and the trees differ; but if both
come to an end, they have taken equally much.

## Main definitions

* `Match.SameExtent` — two outcomes that take equally much if both are results.
* `Grammar.AppliesLike` — rules that take equally much in two grammars.

## Main results

* `Match.SameExtent.repeated` — repetitions take equally much if every round does.
* `Rule.evalAlternatives_written` — so do the alternatives of a rule and those read back.
* `Grammar.appliesLike` — **rules take equally much.**
-/

namespace Ebnf

open Match (Outcome Span Stop evalAtom evalAtoms evalAlternatives applyRule)

namespace Match

/-- The outcomes take equally much of a text, unless one of the matches was given up. -/
inductive SameExtent : Outcome → Outcome → Prop
  /-- The first match was given up. -/
  | left (stop : Stop) (o : Outcome) : SameExtent (.error stop) o
  /-- The second match was given up. -/
  | right (o : Outcome) (stop : Stop) : SameExtent o (.error stop)
  /-- Both fail. -/
  | failed : SameExtent (.ok none) (.ok none)
  /-- Both succeed. -/
  | matched {span span' : Span} (h : span.length = span'.length) :
    SameExtent (.ok (some span)) (.ok (some span'))

namespace SameExtent

theorem refl (o : Outcome) : SameExtent o o := by
  rcases o with stop | _ | span
  · exact .left stop _
  · exact .failed
  · exact .matched rfl

theorem after_eq {span span' : Span} (h : span.length = span'.length) (text : List Char) :
    span.after text = span'.after text := by
  rw [Span.after, Span.after, h]

theorem length_append {a a' b b' : Span} (h : a.length = a'.length) (h' : b.length = b'.length) :
    (a ++ b).length = (a' ++ b').length := by
  change a.length + b.length = a'.length + b'.length
  rw [h, h']

/-- What goes on alike after a failure, and after spans of one length, takes equally much. -/
theorem bind {o o' failed failed' : Outcome} {go go' : Span → Outcome} : SameExtent o o' →
    SameExtent failed failed' →
    (∀ span span', span.length = span'.length → SameExtent (go span) (go' span')) →
    SameExtent
      (match o with
        | .error stop => .error stop
        | .ok none => failed
        | .ok (some span) => go span)
      (match o' with
        | .error stop => .error stop
        | .ok none => failed'
        | .ok (some span) => go' span) := by
  intro h hfailed hgo
  cases h with
  | left => exact .left _ _
  | right => exact .right _ _
  | failed => exact hfailed
  | matched h => exact hgo _ _ h

/-- Repetitions take equally much if every round does, even where the rounds make different nodes.
-/
theorem repeated {once once' : List Char → Outcome}
    (honce : ∀ text, SameExtent (once text) (once' text)) (text : List Char) :
    SameExtent
      (match Match.repeated once text with
        | .error stop => .error stop
        | .ok span => .ok (some span))
      (match Match.repeated once' text with
        | .error stop => .error stop
        | .ok span => .ok (some span)) := by
  -- induction on the length of the text, which every round but the last reduces
  induction hn : text.length using Nat.strongRecOn generalizing text with
  | ind n ih =>
    -- the two rounds take equally much
    have hfirst := honce text
    rw [Match.repeated, Match.repeated]
    generalize once text = o at hfirst
    generalize once' text = o' at hfirst
    cases hfirst with
    | left => exact .left _ _
    | right => exact .right _ _
    | failed => exact .matched rfl
    | @matched span span' h =>
      dsimp only
      rw [← after_eq h]
      -- a round that takes something leaves the same text for the others
      by_cases hlt : (span.after text).length < text.length
      · rw [if_pos hlt, if_pos hlt]
        have hmore := ih _ (hn ▸ hlt) (span.after text) rfl
        generalize Match.repeated once (span.after text) = m at hmore
        generalize Match.repeated once' (span.after text) = m' at hmore
        rcases m with stop | more
        · exact .left _ _
        · rcases m' with stop | more'
          · exact .right _ _
          · cases hmore with
            | matched hmore => exact .matched (length_append h hmore)
      · rw [if_neg hlt, if_neg hlt]
        exact .matched rfl

end SameExtent

end Match

open Match (SameExtent)

variable [Pattern.Engine]

/-! ### Atoms and alternatives -/

/-- With `nesting` applications open in the first grammar and any number in the second, and on any
two levels, the rules with the names take equally much. -/
def Grammar.AppliesLike (g g' : Grammar) (nesting : Nat) (names : List String) : Prop :=
  ∀ name ∈ names, ∀ depth nesting' depth' text,
    SameExtent (applyRule g nesting depth name text) (applyRule g' nesting' depth' name text)

section

variable {g g' : Grammar} {nesting : Nat} {names : List String} {owner parent : String}

/-- The rule of a bracket around a name takes what the rule with the name takes. -/
theorem Grammar.AppliesLike.ofBracket (h : g.AppliesLike g' nesting names) {name lifted : String}
    (hname : name ∈ names) {r : Rule} (hfind : g'.find? lifted = some r)
    (halts : r.alts = [[.reference name]]) (depth nesting' depth' : Nat) (text : List Char) :
    SameExtent (applyRule g nesting depth name text)
      (applyRule g' nesting' depth' lifted text) := by
  -- a second match without room is given up
  match nesting', depth' with
  | 0, 0 => exact .right _ _
  | 0, _ + 1 => exact .right _ _
  | _ + 1, 0 => exact .right _ _
  | nesting' + 1, depth' + 1 =>
    -- one application and one level further the rule with the name is applied
    have happly := h name hname depth nesting' depth' text
    rw [applyRule, hfind]
    simp only [halts, evalAlternatives, evalAtoms, evalAtom]
    generalize applyRule g nesting depth name text = o at happly
    generalize applyRule g' nesting' depth' name text = o' at happly
    cases happly with
    | left => exact .left _ _
    | right => exact .right _ _
    | failed => exact .failed
    | matched h => exact .matched h

/-- An atom takes as much as what is read back for it. -/
theorem Atom.evalAtom_written {atom atom' : Atom} {rules : List Rule}
    (h : Primary.LiftsTo owner parent atom.written atom' rules)
    (hfind : ∀ r ∈ rules, g'.find? r.name = some r) (hlike : g.AppliesLike g' nesting names)
    (hnames : ∀ name, atom.reference? = some name → name ∈ names)
    (depth nesting' depth' : Nat) (text : List Char) :
    SameExtent (evalAtom (applyRule g nesting) depth text atom)
      (evalAtom (applyRule g' nesting') depth' text atom') := by
  rcases Atom.eq_or_lifted_of_liftsTo_written h with ⟨hbracket, rfl, rfl⟩ |
    ⟨bracket, name, lifted, rfl, rfl, rfl⟩
  · -- all but brackets are read back as they were
    cases atom' with
    | terminal expected => exact .refl _
    | pattern p => exact .refl _
    -- a reference applies the same rule in both grammars
    | reference name =>
      have happly := hlike name (hnames name rfl) depth nesting' depth' text
      rw [evalAtom, evalAtom]
      exact happly.bind .failed fun _ _ h => .matched h
    | lifted => cases hbracket
  · -- a bracket becomes one around a reference to its rule
    have hfound : g'.find? lifted = some
        (Rule.ofBracket owner lifted bracket [[.name name.toList]] [[.reference name]]) :=
      hfind _ List.mem_cons_self
    have hrule := hlike.ofBracket (hnames name rfl) hfound rfl (depth + 1) nesting' (depth' + 1)
    cases bracket with
    | group =>
      rw [evalAtom, evalAtom]
      exact hrule text
    | optional =>
      rw [evalAtom, evalAtom]
      exact (hrule text).bind (.matched rfl) fun _ _ h => .matched h
    | repetition =>
      rw [evalAtom, evalAtom]
      exact SameExtent.repeated hrule text

/-- An alternative takes as much as what is read back for it. -/
theorem Alternative.evalAtoms_written : ∀ {atoms atoms' : Alternative} {rules : List Rule},
    Primary.AllLiftTo owner parent (atoms.map Atom.written) atoms' rules →
    (∀ r ∈ rules, g'.find? r.name = some r) → g.AppliesLike g' nesting names →
    (∀ atom ∈ atoms, ∀ name, atom.reference? = some name → name ∈ names) →
    ∀ depth nesting' depth' text, SameExtent (evalAtoms (applyRule g nesting) depth atoms text)
      (evalAtoms (applyRule g' nesting') depth' atoms' text) := by
  intro atoms
  induction atoms with
  | nil =>
    intro atoms' rules h _ _ _ depth nesting' depth' text
    cases h
    exact .matched rfl
  | cons atom rest ih =>
    intro atoms' rules h hfind hlike hnames depth nesting' depth' text
    obtain ⟨hatom, hrest⟩ := List.forall_mem_cons.mp hnames
    cases h with
    | cons hhead htail =>
      -- the rules of both parts are in the second grammar
      obtain ⟨hfindHead, hfindTail⟩ := List.forall_mem_append.mp hfind
      have hfirst := Atom.evalAtom_written hhead hfindHead hlike hatom depth nesting' depth' text
      have hothers := ih htail hfindTail hlike hrest depth nesting' depth'
      rw [evalAtoms, evalAtoms]
      refine hfirst.bind .failed fun span span' h => ?_
      -- the rest starts at one place in both
      have hmore := hothers (span.after text)
      rw [← SameExtent.after_eq h]
      exact hmore.bind .failed fun _ _ hmore => .matched (SameExtent.length_append h hmore)

/-- The alternatives of a rule take as much as those read back for them. -/
theorem Rule.evalAlternatives_written : ∀ {alts alts' : List Alternative} {rules : List Rule},
    Definitions.LiftTo owner parent (alts.map (·.map Atom.written)) alts' rules →
    (∀ r ∈ rules, g'.find? r.name = some r) → g.AppliesLike g' nesting names →
    (∀ alt ∈ alts, ∀ atom ∈ alt, ∀ name, atom.reference? = some name → name ∈ names) →
    ∀ depth nesting' depth' text,
      SameExtent (evalAlternatives (applyRule g nesting) depth alts text)
        (evalAlternatives (applyRule g' nesting') depth' alts' text) := by
  intro alts
  induction alts with
  | nil =>
    intro alts' rules h _ _ _ depth nesting' depth' text
    cases h
    exact .failed
  | cons alt rest ih =>
    intro alts' rules h hfind hlike hnames depth nesting' depth' text
    obtain ⟨halt, hrest⟩ := List.forall_mem_cons.mp hnames
    cases h with
    | cons hhead htail =>
      obtain ⟨hfindHead, hfindTail⟩ := List.forall_mem_append.mp hfind
      have hfirst := Alternative.evalAtoms_written hhead hfindHead hlike halt depth nesting'
        depth' text
      have hothers := ih htail hfindTail hlike hrest depth nesting' depth' text
      rw [evalAlternatives, evalAlternatives]
      -- the first alternatives agree on whether the others are tried
      exact hfirst.bind hothers fun _ _ h => .matched h

end

/-! ### Grammars -/

namespace Grammar

variable {g g' : Grammar}

/-- **Rules take equally much** in a grammar and in one that consists of the written forms of its
rules. -/
theorem appliesLike {statements : List Statement} (h : g.ConsistsOf statements)
    (h' : g'.ConsistsOf (g.rules.map Rule.printed)) :
    ∀ nesting, g.AppliesLike g' nesting g.names := by
  -- induction on the open applications of the first grammar; those of the second do not matter
  intro nesting
  induction nesting with
  | zero =>
    -- the first match is given up
    intro name _ depth nesting' depth' text
    cases depth with
    | zero => exact .left _ _
    | succ depth => exact .left _ _
  | succ nesting ih =>
    intro name hname depth nesting' depth' text
    -- one of the two matches has no level left, or no room
    match depth, nesting', depth' with
    | 0, _, _ => exact .left _ _
    | _ + 1, 0, 0 => exact .right _ _
    | _ + 1, 0, _ + 1 => exact .right _ _
    | _ + 1, _ + 1, 0 => exact .right _ _
    | depth + 1, nesting' + 1, depth' + 1 =>
      -- the rule of a statement in the second grammar has the name of a rule in the first
      obtain ⟨r, hr, rfl⟩ := List.mem_map.mp hname
      obtain ⟨alts, below, hlift, hblock⟩ := h'.exists_block (List.mem_map_of_mem hr)
      have hfind' : g'.find? r.name = some (r.printed.rule alts) :=
        h'.find?_eq_some (hblock _ List.mem_cons_self)
      have hnames : ∀ alt ∈ r.alts, ∀ atom ∈ alt, ∀ name, atom.reference? = some name →
          name ∈ g.names :=
        fun alt halt atom hatom name => h.isResolved.mem_names hr halt hatom
      rw [applyRule, applyRule, h.find?_eq_some hr, hfind']
      exact Rule.evalAlternatives_written hlift
        (fun r' hr' => h'.find?_eq_some (hblock r' (List.mem_cons_of_mem _ hr'))) ih hnames depth
        nesting' depth' text

/-- If both matches of a rule come to an end, they have the same success and remainder. -/
theorem AppliesLike.result_eq {nesting nesting' : Nat} {names : List String}
    (h : g.AppliesLike g' nesting names) {rule input : String} (hrule : rule ∈ names)
    {maxDepth maxDepth' : Int} {result result' : MatchResult}
    (hmatch : g.matchWithin nesting rule input maxDepth = .ok result)
    (hmatch' : g'.matchWithin nesting' rule input maxDepth' = .ok result') :
    result.success = result'.success ∧ result.remainder = result'.remainder := by
  obtain ⟨taken, happly, rfl⟩ := exists_of_matchWithin_eq_ok hmatch
  obtain ⟨taken', happly', rfl⟩ := exists_of_matchWithin_eq_ok hmatch'
  have hsame := h rule hrule maxDepth.toNat nesting' maxDepth'.toNat input.toList
  rw [happly, happly'] at hsame
  cases hsame with
  | failed => exact ⟨rfl, rfl⟩
  | matched hlength =>
    refine ⟨rfl, ?_⟩
    rw [resultOf, resultOf, SameExtent.after_eq hlength]

end Grammar

end Ebnf
