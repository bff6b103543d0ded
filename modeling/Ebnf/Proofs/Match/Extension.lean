import Ebnf.Proofs.Match.Termination

/-!
# Further statements change no match

What a rule of a statement matches depends on the statement and on those that it refers to, but not
on the names of the rules made of brackets: no node has such a name, and no fault, since a bracket's
rule is never beyond the limit where the rule around it is not.  So a grammar may get further
statements, even one that takes a name which a bracket's rule had.

## Main definitions

* `Grammar.ApplyAlike` — rules that are applied alike in two grammars.
* `ReferToDeclared` — statements that refer to nothing but what they declare.
* `bracketGrammar` — the grammar of a bracket, without the statement that takes its name.

## Main results

* `Definitions.LiftTo.evalAlternatives_eq` — the names of brackets do not matter.
* `Grammar.matchWithin_eq_of_subset` — **further statements change no match.**
-/

namespace Ebnf

open Builder (liftedName)
open Match (evalAtom evalAtoms evalAlternatives applyRule)

section AnyEngine

variable [Pattern.Engine]

/-- With `depth` levels left, the rules with the names do the same in both grammars. -/
def Grammar.ApplyAlike (g g' : Grammar) (depth : Nat) (names : List String) : Prop :=
  ∀ name ∈ names, ∀ nesting, applyRule g nesting depth name = applyRule g' nesting depth name

theorem Grammar.ApplyAlike.subset {g g' : Grammar} {depth : Nat} {names names' : List String}
    (h : g.ApplyAlike g' depth names) (hsub : names' ⊆ names) : g.ApplyAlike g' depth names' :=
  fun name hname => h name (hsub hname)

/-! ### Definitions lifted twice -/

section Lifting

variable {g g' : Grammar} {depth : Nat} {owner owner' : String}

mutual

theorem Primary.LiftsTo.evalAtom_eq : ∀ {parent parent' p atom atom' rules rules'},
    Primary.LiftsTo owner parent p atom rules → Primary.LiftsTo owner' parent' p atom' rules' →
    (∀ r ∈ rules, g.find? r.name = some r) → (∀ r ∈ rules', g'.find? r.name = some r) →
    g.ApplyAlike g' depth p.references → ∀ nesting text,
      evalAtom (applyRule g nesting) depth text atom
        = evalAtom (applyRule g' nesting) depth text atom'
  | _, _, _, _, _, _, _, .terminal _ _, .terminal _ _, _, _, _, _, _ => rfl
  | _, _, _, _, _, _, _, .pattern _ _, .pattern _ _, _, _, _, _, _ => rfl
  | _, _, _, _, _, _, _, .name _ name, .name _ _, _, _, halike, nesting, text => by
    rw [evalAtom, evalAtom, halike (String.ofList name) List.mem_cons_self nesting]
  | parent, parent', _, _, _, _, _, @Primary.LiftsTo.bracketed _ _ _ bracket k inner alts _ h,
      @Primary.LiftsTo.bracketed _ _ _ _ k' _ alts' _ h', hfind, hfind', halike, nesting, text => by
    -- the rules of the bracket have names of their own but the same definitions
    have hrule : applyRule g nesting (depth + 1) (liftedName parent k)
        = applyRule g' nesting (depth + 1) (liftedName parent' k') := by
      funext text
      cases nesting with
      | zero => rfl
      | succ nesting =>
        -- both rules were lifted out of the one bracket
        have hfound : g.find? (liftedName parent k)
            = some (Rule.ofBracket owner (liftedName parent k) bracket inner alts) :=
          hfind _ List.mem_cons_self
        have hfound' : g'.find? (liftedName parent' k')
            = some (Rule.ofBracket owner' (liftedName parent' k') bracket inner alts') :=
          hfind' _ List.mem_cons_self
        rw [applyRule, applyRule, hfound, hfound']
        exact h.evalAlternatives_eq h' (fun r hr => hfind r (List.mem_cons_of_mem _ hr))
          (fun r hr => hfind' r (List.mem_cons_of_mem _ hr)) halike nesting text
    cases bracket with
    | group => rw [evalAtom, evalAtom, hrule]
    | optional => rw [evalAtom, evalAtom, hrule]
    | repetition => rw [evalAtom, evalAtom, hrule]

theorem Primary.AllLiftTo.evalAtoms_eq : ∀ {parent parent' ps atoms atoms' rules rules'},
    Primary.AllLiftTo owner parent ps atoms rules →
    Primary.AllLiftTo owner' parent' ps atoms' rules' →
    (∀ r ∈ rules, g.find? r.name = some r) → (∀ r ∈ rules', g'.find? r.name = some r) →
    g.ApplyAlike g' depth (Primary.allReferences ps) → ∀ nesting text,
      evalAtoms (applyRule g nesting) depth atoms text
        = evalAtoms (applyRule g' nesting) depth atoms' text
  | _, _, _, _, _, _, _, .nil _, .nil _, _, _, _, _, _ => rfl
  | _, _, _, _, _, _, _, .cons hp hrest, .cons hp' hrest', hfind, hfind', halike, nesting,
      text => by
    have hfirst := hp.evalAtom_eq hp' (fun r hr => hfind r (List.mem_append_left _ hr))
      (fun r hr => hfind' r (List.mem_append_left _ hr))
      (halike.subset (List.subset_append_left _ _)) nesting text
    have hothers := hrest.evalAtoms_eq hrest' (fun r hr => hfind r (List.mem_append_right _ hr))
      (fun r hr => hfind' r (List.mem_append_right _ hr))
      (halike.subset (List.subset_append_right _ _)) nesting
    rw [evalAtoms, evalAtoms, hfirst]
    simp only [hothers]

/-- The names of brackets do not matter: definitions lifted with other names do the same, if what
they refer to does. -/
theorem Definitions.LiftTo.evalAlternatives_eq : ∀ {parent parent' d alts alts' rules rules'},
    Definitions.LiftTo owner parent d alts rules →
    Definitions.LiftTo owner' parent' d alts' rules' →
    (∀ r ∈ rules, g.find? r.name = some r) → (∀ r ∈ rules', g'.find? r.name = some r) →
    g.ApplyAlike g' depth (Definitions.references d) → ∀ nesting text,
      evalAlternatives (applyRule g nesting) depth alts text
        = evalAlternatives (applyRule g' nesting) depth alts' text
  | _, _, _, _, _, _, _, .nil _, .nil _, _, _, _, _, _ => rfl
  | _, _, _, _, _, _, _, .cons halt hrest, .cons halt' hrest', hfind, hfind', halike, nesting,
      text => by
    have hfirst := halt.evalAtoms_eq halt' (fun r hr => hfind r (List.mem_append_left _ hr))
      (fun r hr => hfind' r (List.mem_append_left _ hr))
      (halike.subset (List.subset_append_left _ _)) nesting text
    have hothers := hrest.evalAlternatives_eq hrest'
      (fun r hr => hfind r (List.mem_append_right _ hr))
      (fun r hr => hfind' r (List.mem_append_right _ hr))
      (halike.subset (List.subset_append_right _ _)) nesting text
    rw [evalAlternatives, evalAlternatives, hfirst, hothers]

end

end Lifting

/-! ### Grammars with statements in common -/

namespace Grammar

variable {g g' : Grammar} {statements statements' : List Statement}

/-- If all that is referred to is declared, the rules of the statements are applied alike with any
number of levels. -/
theorem ConsistsOf.applyAlike (h : g.ConsistsOf statements) (h' : g'.ConsistsOf statements')
    (hsub : statements ⊆ statements')
    (hrefs : ∀ s ∈ statements, Definitions.references s.definitions ⊆ statements.map (·.name)) :
    ∀ depth, g.ApplyAlike g' depth (statements.map (·.name)) := by
  -- induction on the levels: what is referred to is applied one level deeper
  intro depth
  induction depth with
  -- without levels nothing is applied
  | zero =>
    intro name _ nesting
    cases nesting <;> rfl
  | succ depth ih =>
    intro name hname nesting
    cases nesting with
    | zero => rfl
    | succ nesting =>
      -- the rule of the statement has the same name in both grammars
      obtain ⟨s, hs, rfl⟩ := List.mem_map.mp hname
      obtain ⟨alts, below, hlift, hblock⟩ := h.exists_block hs
      obtain ⟨alts', below', hlift', hblock'⟩ := h'.exists_block (hsub hs)
      have hfind : g.find? s.name = some (s.rule alts) :=
        h.find?_eq_some (hblock _ List.mem_cons_self)
      have hfind' : g'.find? s.name = some (s.rule alts') :=
        h'.find?_eq_some (hblock' _ List.mem_cons_self)
      -- from here on the two differ only in the rules of the brackets
      funext text
      rw [applyRule, applyRule, hfind, hfind']
      exact hlift.evalAlternatives_eq hlift'
        (fun r hr => h.find?_eq_some (hblock r (List.mem_cons_of_mem _ hr)))
        (fun r hr => h'.find?_eq_some (hblock' r (List.mem_cons_of_mem _ hr)))
        (ih.subset (hrefs s hs)) nesting text

end Grammar

/-- All that the statements refer to is declared by one of them. -/
def ReferToDeclared (raws : List (List Char)) : Prop :=
  ∀ raw ∈ raws, ∀ s, Statement.read raw = .ok s →
    Definitions.references s.definitions ⊆ declaredNames raws

/-- What texts refer to is what the statements do that they are read as. -/
theorem referToDeclared_iff_of_read {raws : List (List Char)} {statements : List Statement}
    (h : List.Forall₂ (fun raw s => Statement.read raw = .ok s) raws statements) :
    ReferToDeclared raws ↔
      ∀ s ∈ statements, Definitions.references s.definitions ⊆ statements.map (·.name) := by
  rw [ReferToDeclared, declaredNames_of_read h]
  constructor
  · intro hrefs s hs
    obtain ⟨raw, hraw, hread⟩ := exists_of_forall₂_right h hs
    exact hrefs raw hraw s hread
  · intro hrefs raw hraw s hread
    obtain ⟨s', hs', hread'⟩ := exists_of_forall₂_left h hraw
    obtain rfl := Except.ok.inj (hread.symm.trans hread')
    exact hrefs s hs'

/-- If the texts are among others, so are the statements that they are read as. -/
theorem Statement.subset_of_read {raws raws' : List (List Char)}
    {statements statements' : List Statement}
    (h : List.Forall₂ (fun raw s => Statement.read raw = .ok s) raws statements)
    (h' : List.Forall₂ (fun raw s => Statement.read raw = .ok s) raws' statements')
    (hsub : raws ⊆ raws') : statements ⊆ statements' := by
  intro s hs
  obtain ⟨raw, hraw, hread⟩ := exists_of_forall₂_right h hs
  obtain ⟨s', hs', hread'⟩ := exists_of_forall₂_left h' (hsub hraw)
  have heq : s = s' := Except.ok.inj (hread.symm.trans hread')
  exact heq ▸ hs'

/-- **Further statements change no match.**  A rule of the statements gives the same result when
there are others between them, whatever names those declare: the same success, the same remainder
and tree, or the same fault with the same rule in it. -/
theorem Grammar.matchWithin_eq_of_subset {raws raws' : List (List Char)} {g g' : Grammar}
    (h : Grammar.ofStatements raws = .ok g) (h' : Grammar.ofStatements raws' = .ok g')
    (hsub : raws ⊆ raws') (hrefs : ReferToDeclared raws) {rule : String}
    (hrule : rule ∈ declaredNames raws) (nesting : Nat) (input : String) (maxDepth : Int) :
    g.matchWithin nesting rule input maxDepth = g'.matchWithin nesting rule input maxDepth := by
  obtain ⟨statements, hreads, hg⟩ := Grammar.consistsOf_of_ofStatements h
  obtain ⟨statements', hreads', hg'⟩ := Grammar.consistsOf_of_ofStatements h'
  have hstatements : statements ⊆ statements' := Statement.subset_of_read hreads hreads' hsub
  rw [declaredNames_of_read hreads] at hrule
  have happly := hg.applyAlike hg' hstatements ((referToDeclared_iff_of_read hreads).mp hrefs)
    maxDepth.toNat rule hrule nesting
  have hcontains : g.contains rule = true := contains_iff.mpr (hg.mem_names hrule)
  have hcontains' : g'.contains rule = true :=
    contains_iff.mpr (hg'.mem_names (List.map_subset _ hstatements hrule))
  rw [matchWithin, matchWithin, hcontains, hcontains', happly]

end AnyEngine

attribute [local instance] Pattern.Engine.verbatim

/-- The grammar of a statement with a bracket, whose rule gets the first name for it. -/
def bracketGrammar : Grammar :=
  { rules := [
      ⟨"X", [[.lifted .optional "XSubDef1", .terminal "b"]], "X=[\"a\"],\"b\"", none, none⟩,
      ⟨"XSubDef1", [[.terminal "a"]], "XSubDef1=\"a\"", some "X", some "optional"⟩]
    nodeTypes := ["X"] }

theorem ofStatements_bracket : Grammar.ofStatements [bracketStatement] = .ok bracketGrammar :=
  Grammar.ofStatements_eq_ok_iff.mpr
    ⟨⟨["X"], bracketGrammar.rules.map Rule.slot, [("X", 1)]⟩, by cbv, rfl⟩

theorem referToDeclared_bracket : ReferToDeclared [bracketStatement] := by
  have hread : Statement.read bracketStatement = .ok ⟨"X",
      [[.bracketed .optional [[.terminal ['a']]], .terminal ['b']]], "X=[\"a\"],\"b\""⟩ := by
    cbv
  intro raw hraw s hs
  obtain rfl := List.mem_singleton.mp hraw
  obtain rfl := Except.ok.inj (hread.symm.trans hs)
  exact List.nil_subset _

/-- Where a statement takes the name that a bracket's rule has without it. -/
theorem Grammar.matchWithin_eq_of_subset_taken :
    "XSubDef1" ∈ bracketGrammar.lifted ∧ "XSubDef1" ∈ takenGrammar.topLevel ∧
      bracketGrammar.matchWithin 9 "X" "ab" 1 = takenGrammar.matchWithin 9 "X" "ab" 1 := by
  have hdeclared : declaredNames [bracketStatement] = ["X"] := by cbv
  have hsub : [bracketStatement] ⊆ [takingStatement, bracketStatement] :=
    List.subset_cons_self _ _
  exact ⟨by decide, by decide, matchWithin_eq_of_subset ofStatements_bracket ofStatements_taken
    hsub referToDeclared_bracket (hdeclared ▸ List.mem_cons_self) 9 "ab" 1⟩

end Ebnf
