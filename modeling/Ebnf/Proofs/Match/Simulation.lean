import Ebnf.Proofs.Compile
import Ebnf.Proofs.Match.Nested
import Ebnf.Proofs.Match.Termination

/-!
# Lifting preserves meaning

Matching with the flat rules of a grammar is the same as matching the definitions as they are
written.  A bracket's rule is found under its own name and is applied at the level of the rule
around it, so applying it is matching the definitions in the bracket.  Only when too many
applications are open at a time does the flat match end where the nested one goes on.

## Main definitions

* `Nested.Agrees` — an outcome of the flat match and a reading say the same.

## Main results

* `Definitions.LiftTo.agrees` — lifted definitions are matched as the definitions are read.
-/

namespace Ebnf

open Builder (liftedName)
open Source (unescape)
open Match (Outcome Span repeated evalAtom evalAtoms evalAlternatives)

namespace Nested

/-- The stop of a flat match for one of a reading. -/
def Stop.flat : Stop → Match.Stop
  | .tooDeep rule => .tooDeep rule
  | .undeclared name => .missingRule name

/-- An outcome of a flat match at the start of `text` says the same as a reading, unless too many
applications were open. -/
inductive Agrees (text : List Char) : Outcome → Except Stop Reading → Prop
  /-- The flat match was given up. -/
  | exhausted (r) : Agrees text (.error .tooNested) r
  /-- Both stop for the same reason. -/
  | stopped (stop : Stop) : Agrees text (.error stop.flat) (.error stop)
  /-- Both fail. -/
  | failed : Agrees text (.ok none) (.ok none)
  /-- Both succeed with the same rest of the text and the same nodes. -/
  | matched (span : Span) :
    Agrees text (.ok (some span)) (.ok (some (span.after text, span.children)))

/-- The node for a span is the node for the rest of the text after it. -/
theorem node_after (rule : String) (text : List Char) (span : Span) :
    node rule text (span.after text, span.children) = span.toTree rule text := by
  have htake : text.take (text.length - (span.after text).length) = span.covered text := by
    rw [Span.after, Span.covered, List.length_drop]
    rcases Nat.le_total span.length text.length with hle | hle
    · rw [Nat.sub_sub_self hle]
    · rw [Nat.sub_eq_zero_of_le hle, Nat.sub_zero, List.take_length, List.take_of_length_le hle]
  rw [node, htake, Span.toTree]

namespace Agrees

variable {text : List Char}

/-- Two spans one after the other. -/
theorem matched_append (span more : Span) :
    Agrees text (.ok (some (span ++ more)))
      (.ok (some (more.after (span.after text), span.children ++ more.children))) := by
  have hafter : more.after (span.after text) = (span ++ more).after text := List.drop_drop
  rw [hafter]
  exact .matched (span ++ more)

/-- Repetitions of what agrees everywhere agree, by induction on the text that is left. -/
theorem repeated {once : List Char → Outcome} {once' : List Char → Except Stop Reading}
    (honce : ∀ text, Agrees text (once text) (once' text)) (text : List Char) :
    Agrees text
      (match Match.repeated once text with
        | .error stop => .error stop
        | .ok span => .ok (some span))
      (match star once' text with
        | .error stop => .error stop
        | .ok r => .ok (some r)) := by
  -- induction on the length of the text, which every round but the last reduces
  induction hn : text.length using Nat.strongRecOn generalizing text with
  | ind n ih =>
    have hfirst := honce text
    rw [Match.repeated, star]
    -- what follows depends on the two outcomes of the round alone
    generalize once text = o at hfirst
    generalize once' text = r at hfirst
    cases hfirst with
    | exhausted => exact .exhausted _
    | stopped stop => exact .stopped stop
    | failed => exact .matched Span.nothing
    | matched span =>
      dsimp only
      -- a round that takes something is followed by others on a shorter text
      by_cases hlt : (span.after text).length < text.length
      · rw [if_pos hlt, if_pos hlt]
        have hmore := ih _ (hn ▸ hlt) (span.after text) rfl
        generalize Match.repeated once (span.after text) = m at hmore
        generalize star once' (span.after text) = m' at hmore
        rcases m with _ | more <;> rcases m' with _ | r
        · cases hmore with
          | exhausted => exact .exhausted _
          | stopped => exact .stopped _
        · cases hmore
          exact .exhausted _
        · cases hmore
        · cases hmore
          exact matched_append span more
      · -- one that takes nothing is the last on either side
        rw [if_neg hlt, if_neg hlt]
        exact .matched Span.nothing

end Agrees

end Nested

section AnyEngine

variable [Pattern.Engine]

/-! ### Lifted definitions -/

open Nested (Agrees Stop Reading)

/-- References to the names one level deeper are read by `refer` as the rules of the grammar are
applied, whatever number of applications may be open. -/
def Nested.RefersAs (g : Grammar) (depth : Nat) (refer : String → List Char → Except Stop Reading)
    (names : List String) : Prop :=
  ∀ n, ∀ name ∈ names, ∀ text,
    Agrees text (Match.applyRule g n depth name text) (refer name text)

theorem Nested.RefersAs.subset {g : Grammar} {depth : Nat}
    {refer : String → List Char → Except Stop Reading} {names names' : List String}
    (h : Nested.RefersAs g depth refer names) (hsub : names' ⊆ names) :
    Nested.RefersAs g depth refer names' :=
  fun n name hname text => h n name (hsub hname) text

variable {g : Grammar} {depth : Nat} {refer : String → List Char → Except Stop Reading}
  {owner : String}

open Nested (RefersAs)

mutual

/-- **An atom matches what its primary reads.** Lifting leaves the primary as it is or puts a rule
in the place of a bracket, which stays at the level of the rule around it. -/
theorem Primary.LiftsTo.agrees : ∀ {parent p atom rules},
    Primary.LiftsTo owner parent p atom rules → (∀ r ∈ rules, g.find? r.name = some r) →
    RefersAs g depth refer p.references →
    ∀ n text, Agrees text (evalAtom (Match.applyRule g n) depth text atom)
      (Nested.primary refer p text)
  -- a terminal is a start of the text or none for both
  | _, _, _, _, .terminal _ body, _, _, n, text => by
    rw [evalAtom, Nested.primary, String.toList_ofList]
    by_cases hpre : (unescape body).isPrefixOf text = true
    · rw [if_pos hpre, if_pos hpre, String.length_ofList]
      exact .matched ⟨_, []⟩
    · rw [if_neg hpre, if_neg hpre]
      exact .failed
  -- so is a pattern, and the engine is asked for the same text
  | _, _, _, _, .pattern _ p, _, _, n, text => by
    rw [evalAtom, Nested.primary]
    rcases p.matchLength? text with _ | length
    · exact .failed
    · exact .matched ⟨length, []⟩
  -- what a name stands for is read one level deeper, and makes a node
  | _, _, _, _, .name _ name, _, hrefer, n, text => by
    rw [evalAtom, Nested.primary]
    have happly := hrefer n (String.ofList name) List.mem_cons_self text
    generalize Match.applyRule g n depth (String.ofList name) text = o at happly
    generalize refer (String.ofList name) text = r at happly
    cases happly with
    | exhausted => exact .exhausted _
    | stopped stop => exact .stopped stop
    | failed => exact .failed
    | matched span =>
      dsimp only
      rw [Nested.node_after]
      exact .matched ⟨span.length, [span.toTree (String.ofList name) text]⟩
  | parent, _, _, _, @Primary.LiftsTo.bracketed _ _ _ bracket k inner alts _ h, hfind, hrefer, n,
      text => by
    -- applying the bracket's rule at the same level is matching the alternatives in it
    have hrule : ∀ text, Agrees text (Match.applyRule g n (depth + 1) (liftedName parent k) text)
        (Nested.definitions refer inner text) := by
      intro text
      cases n with
      | zero => exact .exhausted _
      | succ n =>
        have hfound : g.find? (liftedName parent k)
            = some (Rule.ofBracket owner (liftedName parent k) bracket inner alts) :=
          hfind _ List.mem_cons_self
        rw [Match.applyRule, hfound]
        exact h.agrees (fun r hr => hfind r (List.mem_cons_of_mem _ hr)) hrefer n text
    cases bracket with
    | group =>
      rw [evalAtom, Nested.primary]
      exact hrule text
    -- a bracket that fails takes nothing
    | optional =>
      rw [evalAtom, Nested.primary]
      have happly := hrule text
      generalize Match.applyRule g n (depth + 1) (liftedName parent k) text = o at happly
      generalize Nested.definitions refer inner text = r at happly
      cases happly with
      | exhausted => exact .exhausted _
      | stopped stop => exact .stopped stop
      | failed => exact .matched Span.nothing
      | matched span => exact .matched span
    -- the rounds of a repetition agree one by one
    | repetition =>
      rw [evalAtom, Nested.primary]
      exact Agrees.repeated hrule text

theorem Primary.AllLiftTo.agrees : ∀ {parent ps atoms rules},
    Primary.AllLiftTo owner parent ps atoms rules → (∀ r ∈ rules, g.find? r.name = some r) →
    RefersAs g depth refer (Primary.allReferences ps) →
    ∀ n text, Agrees text (evalAtoms (Match.applyRule g n) depth atoms text)
      (Nested.sequence refer ps text)
  | _, _, _, _, .nil _, _, _, n, text => .matched Span.nothing
  | _, _, _, _, .cons hp hrest, hfind, hrefer, n, text => by
    rw [evalAtoms, Nested.sequence]
    have hfirst := hp.agrees (fun r hr => hfind r (List.mem_append_left _ hr))
      -- the first atom decides whether the others are tried
      (hrefer.subset (List.subset_append_left _ _)) n text
    generalize evalAtom _ _ _ _ = o at hfirst
    generalize Nested.primary _ _ _ = r at hfirst
    cases hfirst with
    | exhausted => exact .exhausted _
    | stopped stop => exact .stopped stop
    | failed => exact .failed
    | matched span =>
      -- these are matched behind what the first one took
      have hsecond := hrest.agrees (fun r hr => hfind r (List.mem_append_right _ hr))
        (hrefer.subset (List.subset_append_right _ _)) n (span.after text)
      dsimp only
      generalize evalAtoms _ _ _ _ = o at hsecond
      generalize Nested.sequence _ _ _ = r at hsecond
      cases hsecond with
      | exhausted => exact .exhausted _
      | stopped stop => exact .stopped stop
      | failed => exact .failed
      | matched more => exact .matched_append span more

/-- The alternatives left of definitions match what the definitions read, if references do. -/
theorem Definitions.LiftTo.agrees : ∀ {parent d alts rules},
    Definitions.LiftTo owner parent d alts rules → (∀ r ∈ rules, g.find? r.name = some r) →
    RefersAs g depth refer (Definitions.references d) →
    ∀ n text, Agrees text (evalAlternatives (Match.applyRule g n) depth alts text)
      (Nested.definitions refer d text)
  | _, _, _, _, .nil _, _, _, n, text => .failed
  | _, _, _, _, .cons halt hrest, hfind, hrefer, n, text => by
    rw [evalAlternatives, Nested.definitions]
    have hfirst := halt.agrees (fun r hr => hfind r (List.mem_append_left _ hr))
      (hrefer.subset (List.subset_append_left _ _)) n text
    generalize evalAtoms _ _ _ _ = o at hfirst
    generalize Nested.sequence _ _ _ = r at hfirst
    cases hfirst with
    | exhausted => exact .exhausted _
    | stopped stop => exact .stopped stop
    -- only where an alternative fails the next one is tried
    | failed =>
      exact hrest.agrees (fun r hr => hfind r (List.mem_append_right _ hr))
        (hrefer.subset (List.subset_append_right _ _)) n text
    | matched span => exact .matched span

end

/-! ### Matches -/

namespace Grammar

variable {statements : List Statement} {text : List Char}

/-- If all that is referred to is declared, applying the rule of a statement is reading the
statement, with any number of levels. -/
theorem ConsistsOf.refersAs (h : g.ConsistsOf statements)
    (hrefs : ∀ s ∈ statements, Definitions.references s.definitions ⊆ statements.map (·.name)) :
    ∀ depth, RefersAs g depth (Nested.applyRule statements depth) (statements.map (·.name)) := by
  -- induction on the levels: what is referred to is read one level deeper
  intro depth
  induction depth with
  -- without levels both stop at the name itself
  | zero =>
    intro n name _ text
    cases n with
    | zero => exact .stopped (.tooDeep name)
    | succ n => exact .stopped (.tooDeep name)
  | succ depth ih =>
    intro n name hname text
    cases n with
    | zero => exact .exhausted _
    | succ n =>
      obtain ⟨s, hfind⟩ : ∃ s, statements.find? (·.name = name) = some s := by
        obtain ⟨s, hs, hsname⟩ := List.mem_map.mp hname
        exact Option.isSome_iff_exists.mp (List.find?_isSome.mpr ⟨s, hs, by simpa using hsname⟩)
      -- the rule of the statement is found under the same name, and its brackets are in the grammar
      have hs : s ∈ statements := List.mem_of_find?_eq_some hfind
      have hsname : s.name = name := by simpa using List.find?_some hfind
      obtain ⟨alts, below, hlift, hblock⟩ := h.exists_block hs
      have hrule : g.find? name = some (s.rule alts) :=
        hsname ▸ h.find?_eq_some (hblock _ List.mem_cons_self)
      rw [Match.applyRule, Nested.applyRule, hrule, hfind]
      exact hlift.agrees (fun r hr => h.find?_eq_some (hblock r (List.mem_cons_of_mem _ hr)))
        (ih.subset (hrefs s hs)) n text

/-- Outcomes that agree give the same result, unless the match is given up because too many
applications are open. -/
theorem matchWithin_of_agrees {nesting : Nat} {rule input : String} {maxDepth : Int}
    (hdepth : 1 ≤ maxDepth) (hrule : g.contains rule = true)
    (h : Agrees input.toList (Match.applyRule g nesting maxDepth.toNat rule input.toList)
      (Nested.applyRule statements maxDepth.toNat rule input.toList)) :
    g.matchWithin nesting rule input maxDepth = Nested.matchRule statements rule input maxDepth ∨
      Match.applyRule g nesting maxDepth.toNat rule input.toList = .error .tooNested := by
  rw [matchWithin, if_neg (by omega), hrule, Nested.matchRule]
  -- a result only depends on the two outcomes
  generalize Match.applyRule g nesting maxDepth.toNat rule input.toList = o at h
  generalize Nested.applyRule statements maxDepth.toNat rule input.toList = r at h
  cases h with
  | exhausted => exact Or.inr rfl
  | stopped stop => cases stop <;> exact Or.inl rfl
  | failed =>
    refine Or.inl ?_
    change Except.ok (resultOf rule input.toList none) = Except.ok ⟨false, input, .node rule "" []⟩
    rw [resultOf, String.ofList_toList]
  | matched span =>
    refine Or.inl ?_
    dsimp only
    rw [Nested.node_after]
    rfl

/-- **Lifting preserves meaning.**  If a text compiles and all that it refers to is declared, a text
is matched against a declared rule as the definitions are read in which the rule is written: with
the same result or fault, unless too many applications were open at a time.  That cannot be where
there is room for as many on every level as there are rules. -/
theorem matchWithin_eq_nested {g : Grammar} (h : Grammar.compile text = .ok g)
    (hrefs : ∀ s ∈ Statement.ofText text, Definitions.references s.definitions ⊆ declaredIn text)
    {rule : String} (hrule : rule ∈ declaredIn text) (input : String) {maxDepth : Int}
    (hdepth : 1 ≤ maxDepth) (nesting : Nat) :
    (g.matchWithin nesting rule input maxDepth
        = Nested.matchRule (Statement.ofText text) rule input maxDepth ∨
      Match.applyRule g nesting maxDepth.toNat rule input.toList = .error .tooNested) ∧
    (maxDepth.toNat * g.rules.length ≤ nesting →
      g.matchWithin nesting rule input maxDepth
        = Nested.matchRule (Statement.ofText text) rule input maxDepth) := by
  have hg := Grammar.consistsOf_of_compile h
  have hmem : rule ∈ g.names := hg.mem_names hrule
  have heq := matchWithin_of_agrees hdepth (contains_iff.mpr hmem)
    (hg.refersAs hrefs maxDepth.toNat nesting rule hrule input.toList)
  refine ⟨heq, fun hnesting => heq.resolve_right ?_⟩
  exact hg.applyRule_ne_tooNested _ hmem (Nat.le_trans (weight_le _ _) hnesting)

end Grammar

end AnyEngine

namespace Grammar

attribute [local instance] Pattern.Engine.verbatim

theorem matchWithin_eq_nested_listText :
    listGrammar.matchWithin 20 "L" "((x)x)" 5
      = Nested.matchRule (Statement.ofText listText) "L" "((x)x)" 5 := by
  have hdeclared : declaredIn listText = ["L", "I"] := by
    rw [declaredIn, ofText_listText]
    rfl
  refine (matchWithin_eq_nested compile_listText ?_ ?_ "((x)x)" (by decide) 20).2 (by decide)
  · rw [ofText_listText, hdeclared]
    decide
  · rw [hdeclared]
    decide

end Grammar

end Ebnf
