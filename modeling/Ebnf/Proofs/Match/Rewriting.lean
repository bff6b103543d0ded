import Ebnf.Proofs.Definition.Replacing
import Ebnf.Proofs.Match.Extension
import Ebnf.Proofs.Match.Simulation
import Ebnf.Proofs.StatementAtFault

/-!
# Definitions that say the same

The same can be defined in different ways: what a repetition or an optional bracket holds may stand
in further brackets, and the common beginning of two alternatives may be written once, before a
group.  Wherever that is done in a statement, the statements still make a grammar, and its rules
match as they did, although other brackets are lifted and their rules have other names.

## Main definitions

* `Primary.BracketLaw` — a bracket, and what may stand in its place.
* `Definitions.BracketReplaced`, `Definitions.Factored` — a bracket replaced, and two alternatives
  with a common beginning made one.
* `StatementReplaced` — statements of which one has been replaced.
* `Grammar.MatchAlike` — matches with a rule are the same in two grammars.

## Main results

* `Grammar.exists_matchAlike` — replacing definitions changes no match, if they are read alike.
* `Grammar.matchAlike_of_bracketReplaced` — **equivalent brackets match alike.**
* `Grammar.matchAlike_of_factored` — **a common beginning may be written once.**
-/

namespace Ebnf

open Source (dropBlanks)

section AnyEngine

variable [Pattern.Engine]

/-! ### Brackets -/

/-- A bracket, and what may stand in its place: the laws of options, repetitions and groups. -/
inductive Primary.BracketLaw : Primary → List Primary → Prop
  | repetition_optional (d : Definitions) :
    BracketLaw (.bracketed .repetition d) [.bracketed .repetition [[.bracketed .optional d]]]
  | repetition_repetition (d : Definitions) :
    BracketLaw (.bracketed .repetition d) [.bracketed .repetition [[.bracketed .repetition d]]]
  | repetition_group (d : Definitions) :
    BracketLaw (.bracketed .repetition d) [.bracketed .repetition [[.bracketed .group d]]]
  | optional_repetition (d : Definitions) :
    BracketLaw (.bracketed .repetition d) [.bracketed .optional [[.bracketed .repetition d]]]
  | repetition_twice (d : Definitions) :
    BracketLaw (.bracketed .repetition d) [.bracketed .repetition d, .bracketed .repetition d]
  | group_empty (d : Definitions) :
    BracketLaw (.bracketed .optional d) [.bracketed .group (d ++ [[.terminal []]])]
  | optional_optional (d : Definitions) :
    BracketLaw (.bracketed .optional d) [.bracketed .optional [[.bracketed .optional d]]]
  | optional_group (d : Definitions) :
    BracketLaw (.bracketed .optional d) [.bracketed .optional [[.bracketed .group d]]]

/-- Definitions are read alike when a bracket in them is replaced. -/
theorem Primary.BracketLaw.sequence_eq {p : Primary} {ps : List Primary}
    (h : Primary.BracketLaw p ps) (refer : String → Nested.Reader) :
    Nested.sequence refer [p] = Nested.sequence refer ps := by
  open Nested in
  cases h with
  -- each law of brackets is one of readers
  | repetition_optional d =>
    rw [sequence_singleton, sequence_singleton, primary_repetition, primary_repetition,
      definitions_singleton, sequence_singleton, primary_optional, many_orElse_skip]
  | repetition_repetition d =>
    rw [sequence_singleton, sequence_singleton, primary_repetition, primary_repetition,
      definitions_singleton, sequence_singleton, primary_repetition, many_many]
  | repetition_group d =>
    rw [sequence_singleton, sequence_singleton, primary_repetition, primary_repetition,
      definitions_singleton, sequence_singleton, primary_group]
  | optional_repetition d =>
    rw [sequence_singleton, sequence_singleton, primary_optional, definitions_singleton,
      sequence_singleton, primary_repetition, orElse_of_ne_none (many_ne_none _)]
  | repetition_twice d =>
    rw [sequence_cons, sequence_cons, sequence_singleton, sequence_nil, andThen_skip,
      primary_repetition, many_andThen_many]
  | group_empty d =>
    rw [sequence_singleton, sequence_singleton, primary_optional, primary_group,
      definitions_append, definitions_singleton, sequence_singleton, primary_empty]
  | optional_optional d =>
    rw [sequence_singleton, sequence_singleton, primary_optional, primary_optional,
      definitions_singleton, sequence_singleton, primary_optional,
      orElse_of_ne_none (orElse_skip_ne_none _)]
  | optional_group d =>
    rw [sequence_singleton, sequence_singleton, primary_optional, primary_optional,
      definitions_singleton, sequence_singleton, primary_group]

theorem Primary.BracketLaw.replaceableBy {p : Primary} {ps : List Primary}
    (h : Primary.BracketLaw p ps) : Primary.ReplaceableBy [p] ps where
  ne_nil := by cases h <;> exact List.cons_ne_nil _ _
  sequence_eq := h.sequence_eq
  references := by
    cases h <;> simp [allReferences, references, Definitions.references,
      Definitions.references_append]
  writable hp := by
    rw [List.forall_mem_singleton] at hp
    -- two repetitions are written as one is
    cases h with
    | repetition_twice d => exact List.forall_mem_cons.mpr ⟨hp, List.forall_mem_singleton.mpr hp⟩
    -- the empty alternative stands behind the others
    | group_empty d =>
      obtain ⟨hne, hd⟩ := Definitions.writable_iff.mp (writable_bracketed.mp hp)
      rw [List.forall_mem_singleton, writable_bracketed, Definitions.writable_iff,
        List.forall_mem_append, List.forall_mem_singleton]
      exact ⟨List.append_ne_nil_of_left_ne_nil hne _, hd, allWritable_single.mpr writable_empty⟩
    | _ =>
      -- what was in the bracket stands in another one within it
      rw [List.forall_mem_singleton, writable_bracketed, Definitions.writable_single,
        allWritable_single, writable_bracketed]
      exact writable_bracketed.mp hp

/-- A bracket of one of the alternatives is replaced by what may stand in its place. -/
inductive Definitions.BracketReplaced : Definitions → Definitions → Prop
  | mk (before after : Definitions) (left right : List Primary) {p : Primary} {ps : List Primary}
    (h : Primary.BracketLaw p ps) :
    BracketReplaced (before ++ (left ++ p :: right) :: after)
      (before ++ (left ++ ps ++ right) :: after)

theorem Definitions.BracketReplaced.replaceableBy {d d' : Definitions}
    (h : Definitions.BracketReplaced d d') : Definitions.ReplaceableBy d d' := by
  obtain ⟨before, after, left, right, h⟩ := h
  simpa using (h.replaceableBy.within left right).alternative.among before after

/-! ### Common beginnings -/

/-- Two alternatives that stand next to each other and have a common beginning become one, with a
group of what follows it in either. -/
inductive Definitions.Factored : Definitions → Definitions → Prop
  | mk (before after : Definitions) {p q r : List Primary} (hp : p ≠ []) (hq : q ≠ [])
    (hr : r ≠ []) :
    Factored (before ++ (p ++ q) :: (p ++ r) :: after)
      (before ++ (p ++ [.bracketed .group [q, r]]) :: after)

theorem Definitions.replaceableBy_factored {p q r : List Primary} (hq : q ≠ []) (hr : r ≠ []) :
    Definitions.ReplaceableBy [p ++ q, p ++ r] [p ++ [.bracketed .group [q, r]]] where
  ne_nil := List.cons_ne_nil _ _
  definitions_eq refer := by
    open Nested in
    -- a group that begins with what both alternatives begin with is read as they are
    rw [definitions_cons, definitions_singleton, definitions_singleton, sequence_append,
      sequence_append, sequence_append, sequence_singleton, primary_group, definitions_cons,
      definitions_singleton, andThen_orElse]
  references := by
    intro name
    simp only [references, Primary.allReferences_append, Primary.allReferences,
      Primary.references, List.mem_append]
    -- the references are the same, up to their order and repetition
    tauto
  writable h := by
    simp only [List.forall_mem_cons, Primary.allWritable_iff, List.forall_mem_append] at h
    obtain ⟨⟨-, hp, hq'⟩, ⟨-, -, hr'⟩, -⟩ := h
    -- what was written in two alternatives can be written in the bracket
    have hgroup : (Primary.bracketed .group [q, r]).Writable := by
      simp only [Primary.writable_bracketed, writable_iff, List.forall_mem_cons,
        Primary.allWritable_iff]
      exact ⟨List.cons_ne_nil _ _, ⟨hq, hq'⟩, ⟨hr, hr'⟩, List.forall_mem_nil _⟩
    simp only [List.forall_mem_singleton, Primary.allWritable_iff, List.forall_mem_append]
    exact ⟨List.append_ne_nil_of_right_ne_nil _ (List.cons_ne_nil _ _), hp, hgroup⟩

theorem Definitions.Factored.replaceableBy {d d' : Definitions}
    (h : Definitions.Factored d d') : Definitions.ReplaceableBy d d' := by
  obtain ⟨before, after, -, hq, hr⟩ := h
  simpa using (replaceableBy_factored hq hr).among before after

/-! ### Statements -/

/-- One of the statements is replaced by one with the same name whose definitions `R` relates to its
own. -/
inductive StatementReplaced (R : Definitions → Definitions → Prop) :
    List (List Char) → List (List Char) → Prop
  | mk (before after : List (List Char)) {raw raw' : List Char} {s : Statement} {d' : Definitions}
    (hread : Statement.read raw = .ok s) (hd : R s.definitions d')
    (htext : dropBlanks raw' = s.name.toList ++ '=' :: Definitions.chars d') :
    StatementReplaced R (before ++ raw :: after) (before ++ raw' :: after)

section

variable {before after : List (List Char)} {raw raw' : List Char} {s s' : Statement}

theorem declaredNames_replace (hread : Statement.read raw = .ok s)
    (hread' : Statement.read raw' = .ok s') (hname : s'.name = s.name) :
    declaredNames (before ++ raw' :: after) = declaredNames (before ++ raw :: after) := by
  rw [declaredNames, declaredNames, List.filterMap_append, List.filterMap_append,
    List.filterMap_cons_some (Statement.declaredName?_of_read hread'),
    List.filterMap_cons_some (Statement.declaredName?_of_read hread), hname]

/-- A replaced statement that refers to nothing else refers to what is declared. -/
theorem ReferToDeclared.replace (h : ReferToDeclared (before ++ raw :: after))
    (hread : Statement.read raw = .ok s) (hread' : Statement.read raw' = .ok s')
    (hname : s'.name = s.name)
    (hsub : Definitions.references s'.definitions ⊆ Definitions.references s.definitions) :
    ReferToDeclared (before ++ raw' :: after) := by
  intro text htext t ht
  rw [declaredNames_replace hread hread' hname]
  rcases List.mem_append.mp htext with hbefore | hmem
  · exact h text (List.mem_append_left _ hbefore) t ht
  · rcases List.mem_cons.mp hmem with rfl | hafter
    · obtain rfl := Except.ok.inj (hread'.symm.trans ht)
      exact List.Subset.trans hsub (h raw (by simp) s hread)
    · exact h text (by simp [hafter]) t ht

/-- A replaced statement that is one leaves the statements well-formed. -/
theorem WellFormed.replace (h : WellFormed (before ++ raw :: after))
    (hread : Statement.read raw = .ok s) {d' : Definitions}
    (hstatement : IsStatement s.name d' (dropBlanks raw')) :
    WellFormed (before ++ raw' :: after) where
  isStatement text htext := by
    rcases List.mem_append.mp htext with hbefore | hmem
    · exact h.isStatement text (List.mem_append_left _ hbefore)
    · rcases List.mem_cons.mp hmem with rfl | hafter
      · exact ⟨s.name, d', hstatement⟩
      · exact h.isStatement text (by simp [hafter])
  nodup := by
    rw [declaredNames_replace hread hstatement.read_eq rfl]
    exact h.nodup

end

/-! ### Grammars -/

/-- References are read alike when definitions that are read alike replace those of a statement. -/
theorem Nested.applyRule_replace {before after : List Statement} {s s' : Statement}
    (hname : s'.name = s.name)
    (hd : ∀ refer, definitions refer s.definitions = definitions refer s'.definitions) :
    ∀ depth, applyRule (before ++ s :: after) depth = applyRule (before ++ s' :: after) depth := by
  intro depth
  induction depth with
  -- without levels nothing is read
  | zero =>
    funext rule text
    rw [applyRule, applyRule]
  | succ depth ih =>
    funext rule text
    rw [applyRule, applyRule, List.find?_append, List.find?_append, ih]
    -- statements before the one that is replaced are found as they were
    rcases hfirst : before.find? (·.name = rule) with _ | first
    · rw [hfirst, Option.none_or, Option.none_or]
      -- the statement itself is found under its name, in either list
      by_cases heq : s.name = rule
      · rw [List.find?_cons_of_pos (by simpa using heq),
          List.find?_cons_of_pos (by simpa using hname.trans heq)]
        exact congrFun (hd _) text
      · rw [List.find?_cons_of_neg (by simpa using heq),
          List.find?_cons_of_neg (by simpa using hname ▸ heq)]
    · rw [hfirst]
      rfl

namespace Grammar

variable {g g' : Grammar} {raws raws' : List (List Char)}

/-- A match with the rule has the same result or the same fault in both grammars, unless too many
applications were open at a time in one of them.  That cannot be where there is room for as many on
every level as there are rules. -/
def MatchAlike (g g' : Grammar) (rule : String) : Prop :=
  ∀ input maxDepth nesting nesting',
    (g.matchWithin nesting rule input maxDepth = g'.matchWithin nesting' rule input maxDepth ∨
      Match.applyRule g nesting maxDepth.toNat rule input.toList = .error .tooNested ∨
      Match.applyRule g' nesting' maxDepth.toNat rule input.toList = .error .tooNested) ∧
    (maxDepth.toNat * g.rules.length ≤ nesting → maxDepth.toNat * g'.rules.length ≤ nesting' →
      g.matchWithin nesting rule input maxDepth = g'.matchWithin nesting' rule input maxDepth)

/-- The rules of statements that are read alike match alike. -/
theorem ConsistsOf.matchAlike {statements statements' : List Statement}
    (h : g.ConsistsOf statements) (h' : g'.ConsistsOf statements')
    (hrefs : ∀ s ∈ statements, Definitions.references s.definitions ⊆ statements.map (·.name))
    (hrefs' : ∀ s ∈ statements', Definitions.references s.definitions ⊆ statements'.map (·.name))
    (happly : ∀ depth, Nested.applyRule statements depth = Nested.applyRule statements' depth)
    {rule : String} (hrule : rule ∈ statements.map (·.name))
    (hrule' : rule ∈ statements'.map (·.name)) : g.MatchAlike g' rule := by
  intro input maxDepth nesting nesting'
  have hmem : rule ∈ g.names := h.mem_names hrule
  have hmem' : rule ∈ g'.names := h'.mem_names hrule'
  rcases Int.lt_or_le maxDepth 1 with hdepth | hdepth
  · -- a limit that makes no sense is refused by both
    have hbad : g.matchWithin nesting rule input maxDepth
        = g'.matchWithin nesting' rule input maxDepth := by
      rw [matchWithin, matchWithin, if_pos hdepth, if_pos hdepth]
    exact ⟨Or.inl hbad, fun _ _ => hbad⟩
  -- either match is the reading of the statements, unless it was given up
  have hmatch := matchWithin_of_agrees hdepth (contains_iff.mpr hmem)
    (h.refersAs hrefs maxDepth.toNat nesting rule hrule input.toList)
  have hmatch' := matchWithin_of_agrees hdepth (contains_iff.mpr hmem')
    (h'.refersAs hrefs' maxDepth.toNat nesting' rule hrule' input.toList)
  -- that reading is the same for both lists of statements
  have hread : Nested.matchRule statements rule input maxDepth
      = Nested.matchRule statements' rule input maxDepth := by
    rw [Nested.matchRule, Nested.matchRule, happly]
  rw [← hread] at hmatch'
  refine ⟨?_, fun hnesting hnesting' => ?_⟩
  · -- one of the two was given up
    rcases hmatch with heq | hnested
    · exact hmatch'.imp (fun heq' => heq.trans heq'.symm) Or.inr
    · exact Or.inr (Or.inl hnested)
  · -- there was room for both
    have hne := h.applyRule_ne_tooNested input.toList hmem
      (Nat.le_trans (weight_le _ _) hnesting)
    have hne' := h'.applyRule_ne_tooNested input.toList hmem'
      (Nat.le_trans (weight_le _ _) hnesting')
    exact (hmatch.resolve_right hne).trans (hmatch'.resolve_right hne').symm

theorem wellFormed_of_ofStatements (h : ofStatements raws = .ok g) : WellFormed raws := by
  rcases Build.statements_eq raws with ⟨_, hnone, -⟩ | ⟨fault, -, hfault⟩
  · exact wellFormed_iff.mp hnone
  · rw [ofStatements, hfault] at h
    cases h

theorem exists_nodeTypes_of_ofStatements (hne : raws ≠ []) (h : ofStatements raws = .ok g) :
    ∃ types, Ebnf.nodeTypes (declaredNames raws) = .ok types := by
  rw [ofStatements_of_wellFormed hne (wellFormed_of_ofStatements h)] at h
  split at h
  · cases h
  · rcases htypes : Ebnf.nodeTypes (declaredNames raws) with fault | types
    · rw [htypes] at h
      cases h
    · exact ⟨types, rfl⟩

/-- Well-formed statements that refer to what they declare make a grammar, if the names make node
types. -/
theorem exists_ofStatements (hne : raws ≠ []) (h : WellFormed raws) (hrefs : ReferToDeclared raws)
    {types : List String} (htypes : Ebnf.nodeTypes (declaredNames raws) = .ok types) :
    ∃ g, ofStatements raws = .ok g := by
  have hresolved : AllResolved (rulesOf raws) := by
    intro r hr name hname
    obtain ⟨raw, hraw, hblock⟩ := List.mem_flatMap.mp hr
    obtain ⟨_, d, hstatement⟩ := h.isStatement raw hraw
    rcases (hstatement.makes_blockOf _).1.mem_references hblock hname with hwritten | hmem
    · -- what is written is declared, and what is declared has a rule
      have hdeclared := hrefs raw hraw _ hstatement.read_eq hwritten
      rw [← @topLevel_blocks _ (declaredNames raws) raws h.isStatement] at hdeclared
      exact List.map_subset _ (List.filter_subset_self _) hdeclared
    · obtain ⟨r', hr', rfl⟩ := List.mem_map.mp hmem
      exact List.mem_map_of_mem (List.mem_flatMap.mpr ⟨raw, hraw, hr'⟩)
  rw [ofStatements_of_wellFormed hne h, Builder.checkReferences_eq_ok_iff.mpr
    (Builder.unresolved_eq_nil_iff.mpr hresolved), htypes]
  exact ⟨_, rfl⟩

/-- Replacing the definitions of a statement changes no match, if they may be replaced. The other
statements stay, and so do all declared names. -/
theorem exists_matchAlike {R : Definitions → Definitions → Prop}
    (hR : ∀ d d', R d d' → Definitions.ReplaceableBy d d') (h : ofStatements raws = .ok g)
    (hrefs : ReferToDeclared raws) (hreplaced : StatementReplaced R raws raws') :
    ∃ g', ofStatements raws' = .ok g' ∧ declaredNames raws' = declaredNames raws ∧
      ∀ rule ∈ declaredNames raws, g.MatchAlike g' rule := by
  -- what is replaced is part of one statement
  obtain @⟨before, after, raw, raw', s, d', hread, hd, htext⟩ := hreplaced
  have hreplaceable := hR _ _ hd
  have hwf := wellFormed_of_ofStatements h
  -- what replaces the statement is one, since all that was written of it can be written
  have hstatement : IsStatement s.name d' (dropBlanks raw') := by
    obtain ⟨name, d, hraw⟩ := hwf.isStatement raw (by simp)
    obtain rfl := Except.ok.inj (hread.symm.trans hraw.read_eq)
    obtain ⟨_, -, hname, hwritten⟩ := hraw
    exact ⟨_, htext, hname, Definitions.writable_iff.mpr ⟨hreplaceable.ne_nil,
      hreplaceable.writable (Definitions.writable_iff.mp hwritten.writable).2⟩⟩
  have hread' := hstatement.read_eq
  -- the statement keeps its name, and what is referred to stays declared
  have hdeclared := @declaredNames_replace _ before after raw raw' s _ hread hread' rfl
  have hrefs' := hrefs.replace hread hread' rfl hreplaceable.references
  have hne : ∀ raw, before ++ raw :: after ≠ [] :=
    fun _ => List.append_ne_nil_of_right_ne_nil _ (List.cons_ne_nil _ _)
  -- the node types only depend on the names
  obtain ⟨types, htypes⟩ := exists_nodeTypes_of_ofStatements (hne raw) h
  obtain ⟨g', h'⟩ := exists_ofStatements (hne raw') (hwf.replace hread hstatement) hrefs'
    (hdeclared ▸ htypes)
  refine ⟨g', h', hdeclared, fun rule hrule => ?_⟩
  -- what is left to show is that the two lists of statements are applied alike
  obtain ⟨statements, hreads, hg⟩ := consistsOf_of_ofStatements h
  obtain ⟨statements', hreads', hg'⟩ := consistsOf_of_ofStatements h'
  have hnames := declaredNames_of_read hreads
  have hnames' := declaredNames_of_read hreads'
  have happly : ∀ depth, Nested.applyRule statements depth
      = Nested.applyRule statements' depth := by
    rw [← Statement.filterMap_read hreads, ← Statement.filterMap_read hreads',
      List.filterMap_append, List.filterMap_append,
      List.filterMap_cons_some (b := s) (by rw [hread]; rfl),
      List.filterMap_cons_some (by rw [hread']; rfl)]
    exact Nested.applyRule_replace rfl hreplaceable.definitions_eq
  exact hg.matchAlike hg' ((referToDeclared_iff_of_read hreads).mp hrefs)
    ((referToDeclared_iff_of_read hreads').mp hrefs') happly (hnames ▸ hrule)
    (hnames' ▸ hdeclared ▸ hrule)

/-- **Equivalent brackets match alike.**  If a bracket in a statement, at any depth, is replaced by
an equivalent one, the statements still make a grammar, and whatever is matched against a declared
rule gives the same result or the same fault. -/
theorem matchAlike_of_bracketReplaced (h : ofStatements raws = .ok g)
    (hrefs : ReferToDeclared raws)
    (hreplaced : StatementReplaced (Definitions.Replaced Definitions.BracketReplaced) raws raws') :
    ∃ g', ofStatements raws' = .ok g' ∧ declaredNames raws' = declaredNames raws ∧
      ∀ rule ∈ declaredNames raws, g.MatchAlike g' rule :=
  exists_matchAlike
    (fun _ _ hd => hd.replaceableBy fun _ _ hbracket => hbracket.replaceableBy) h hrefs hreplaced

end Grammar

end AnyEngine

/-! ### A repetition of alternatives -/

section Twice

attribute [local instance] Pattern.Engine.verbatim

/-- A repetition within a bracket, of alternatives with a common beginning. -/
def choiceStatement : List Char :=
  ['X', '=', '[', '\x7b', '"', 'a', '"', ',', '"', 'b', '"', '|', '"', 'a', '"', ',', 'X', '\x7d',
    ']']

/-- The same with the repetition written twice. -/
def twiceStatement : List Char :=
  ['X', '=', '[', '\x7b', '"', 'a', '"', ',', '"', 'b', '"', '|', '"', 'a', '"', ',', 'X', '\x7d',
    ',', '\x7b', '"', 'a', '"', ',', '"', 'b', '"', '|', '"', 'a', '"', ',', 'X', '\x7d', ']']

/-- The same with the common beginning written once. -/
def groupStatement : List Char :=
  ['X', '=', '[', '\x7b', '"', 'a', '"', ',', '(', '"', 'b', '"', '|', 'X', ')', '\x7d', ']']

/-- The grammar of the first of the statements, with a rule for each of its brackets. -/
def choiceGrammar : Grammar :=
  { rules := [
      ⟨"X", [[.lifted .optional "XSubDef1"]], "X=[\x7b\"a\",\"b\"|\"a\",X\x7d]", none, none⟩,
      ⟨"XSubDef1", [[.lifted .repetition "XSubDef1SubDef1"]],
        "XSubDef1=\x7b\"a\",\"b\"|\"a\",X\x7d", some "X", some "optional"⟩,
      ⟨"XSubDef1SubDef1", [[.terminal "a", .terminal "b"], [.terminal "a", .reference "X"]],
        "XSubDef1SubDef1=\"a\",\"b\"|\"a\",X", some "X", some "repetition"⟩]
    nodeTypes := ["X"] }

theorem read_choice : Statement.read choiceStatement = .ok ⟨"X", [[.bracketed .optional
    [[.bracketed .repetition [[.terminal ['a'], .terminal ['b']],
      [.terminal ['a'], .name ['X']]]]]]], "X=[\x7b\"a\",\"b\"|\"a\",X\x7d]"⟩ := by
  cbv

theorem ofStatements_choice : Grammar.ofStatements [choiceStatement] = .ok choiceGrammar :=
  Grammar.ofStatements_eq_ok_iff.mpr ⟨⟨["X"], choiceGrammar.rules.map Rule.slot,
    [("XSubDef1", 1), ("X", 1)]⟩, by cbv, rfl⟩

theorem referToDeclared_choice : ReferToDeclared [choiceStatement] :=
  (referToDeclared_iff_of_read (.cons read_choice .nil)).mpr (by decide)

/-- Where a repetition within a bracket is written twice. -/
theorem Grammar.matchAlike_of_bracketReplaced_choice :
    ∃ g', ofStatements [twiceStatement] = .ok g' ∧ choiceGrammar.MatchAlike g' "X" := by
  have hreplaced : StatementReplaced (Definitions.Replaced Definitions.BracketReplaced)
      [choiceStatement] [twiceStatement] :=
    .mk [] [] read_choice (.inside [] [] [] [] .optional
      (.here (.mk [] [] [] [] (.repetition_twice _)))) (by cbv)
  obtain ⟨g', h', -, halike⟩ :=
    matchAlike_of_bracketReplaced ofStatements_choice referToDeclared_choice hreplaced
  exact ⟨g', h', halike "X" (by decide)⟩

end Twice

/-! ### Common beginnings -/

/-- **A common beginning may be written once.**  If two neighbouring alternatives of a statement or
of a bracket in it have a common beginning and become one, with a group of what follows in either,
the statements still make a grammar, and whatever is matched against a declared rule gives the same
result or the same fault. -/
theorem Grammar.matchAlike_of_factored [Pattern.Engine] {g : Grammar}
    {raws raws' : List (List Char)} (h : ofStatements raws = .ok g) (hrefs : ReferToDeclared raws)
    (hreplaced : StatementReplaced (Definitions.Replaced Definitions.Factored) raws raws') :
    ∃ g', ofStatements raws' = .ok g' ∧ declaredNames raws' = declaredNames raws ∧
      ∀ rule ∈ declaredNames raws, g.MatchAlike g' rule :=
  exists_matchAlike
    (fun _ _ hd => hd.replaceableBy fun _ _ hfactored => hfactored.replaceableBy) h hrefs hreplaced

section Once

attribute [local instance] Pattern.Engine.verbatim

/-- Where two alternatives within brackets become one. -/
theorem Grammar.matchAlike_of_factored_choice :
    ∃ g', ofStatements [groupStatement] = .ok g' ∧ choiceGrammar.MatchAlike g' "X" := by
  have hfactored : Definitions.Factored
      [[.terminal ['a'], .terminal ['b']], [.terminal ['a'], .name ['X']]]
      [[.terminal ['a'], .bracketed .group [[.terminal ['b']], [.name ['X']]]]] :=
    @Definitions.Factored.mk _ [] [] [.terminal ['a']] [.terminal ['b']] [.name ['X']]
      (List.cons_ne_nil _ _) (List.cons_ne_nil _ _) (List.cons_ne_nil _ _)
  have hreplaced : StatementReplaced (Definitions.Replaced Definitions.Factored)
      [choiceStatement] [groupStatement] :=
    .mk [] [] read_choice (.inside [] [] [] [] .optional
      (.inside [] [] [] [] .repetition (.here hfactored))) (by cbv)
  obtain ⟨g', h', -, halike⟩ :=
    matchAlike_of_factored ofStatements_choice referToDeclared_choice hreplaced
  exact ⟨g', h', halike "X" (by decide)⟩

end Once

end Ebnf
