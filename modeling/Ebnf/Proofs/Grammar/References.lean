import Ebnf.Proofs.Grammar.Brackets

/-!
# References of a grammar

References are checked when all rules are known, the rules made of brackets included.  So a name
that is written in a text refers to a statement or, if no statement declares it, to a bracket's rule
that happens to have the name; any other name keeps the text from compiling.

## Main definitions

* `Rule.LiftedFrom` — what the rule of a bracket looks like.
* `strayText`, `strayGrammar` — a text that names the rule of a bracket, and its grammar.

## Main results

* `Definitions.LiftTo.mem_references` — names written are references of the rules, and no others.
* `exists_undeclared_reference` — a grammar can have a reference to a name that is not declared.
* `Grammar.references_resolve` — **what references of a grammar refer to.**
-/

namespace Ebnf

open Builder (liftedName)

section AnyEngine

variable [Pattern.Engine]
variable {owner : String}

/-! ### Names written -/

mutual

theorem Primary.LiftsTo.mem_references {name : String} : ∀ {parent p atom rules},
    Primary.LiftsTo owner parent p atom rules →
    (name ∈ p.references ↔ atom = .reference name ∨ ∃ r ∈ rules, .reference name ∈ r.alts.flatten)
  | _, _, _, _, .terminal _ _ => by simp [Primary.references]
  | _, _, _, _, .pattern _ _ => by simp [Primary.references]
  | _, _, _, _, .name _ _ => by simp [Primary.references, eq_comm]
  | _, _, _, _, .bracketed h => by
    rw [Primary.references, h.mem_references]
    simp [Rule.ofBracket]

theorem Primary.AllLiftTo.mem_references {name : String} : ∀ {parent ps atoms rules},
    Primary.AllLiftTo owner parent ps atoms rules →
    (name ∈ Primary.allReferences ps ↔
      .reference name ∈ atoms ∨ ∃ r ∈ rules, .reference name ∈ r.alts.flatten)
  | _, _, _, _, .nil _ => by simp [Primary.allReferences]
  | _, _, _, _, .cons hp hrest => by
    rw [Primary.allReferences, List.mem_append, hp.mem_references, hrest.mem_references]
    simp only [List.mem_cons, List.mem_append, or_and_right, exists_or, eq_comm]
    exact or_or_or_comm

/-- A name that is written in definitions is referred to in one of the alternatives left of them or
of the rules lifted out of them. -/
theorem Definitions.LiftTo.mem_references {name : String} : ∀ {parent d alts rules},
    Definitions.LiftTo owner parent d alts rules →
    (name ∈ Definitions.references d ↔
      .reference name ∈ alts.flatten ∨ ∃ r ∈ rules, .reference name ∈ r.alts.flatten)
  | _, _, _, _, .nil _ => by simp [Definitions.references]
  | _, _, _, _, .cons halt hrest => by
    rw [Definitions.references, List.mem_append, halt.mem_references, hrest.mem_references,
      List.flatten_cons]
    simp only [List.mem_append, or_and_right, exists_or]
    exact or_or_or_comm

end

/-! ### Rules of brackets -/

/-- The rule is made of a bracket in the statement that defines `owner`, and its name of one of the
given names. -/
structure Rule.LiftedFrom (owner : String) (names : List String) (r : Rule) : Prop where
  owner_eq : r.owner = some owner
  kind_eq : ∃ bracket : Bracket, r.kind = some bracket.word
  name_eq : ∃ parent ∈ names, ∃ k, r.name = liftedName parent k

theorem Rule.LiftedFrom.mono {names names' : List String} (hsub : names ⊆ names') {r : Rule}
    (h : r.LiftedFrom owner names) : r.LiftedFrom owner names' := by
  obtain ⟨parent, hparent, hname⟩ := h.name_eq
  exact ⟨h.owner_eq, h.kind_eq, parent, hsub hparent, hname⟩

/-- Rules of brackets, one list after the other. -/
theorem liftedFrom_append {parent : String} {rules others : List Rule}
    (h : ∀ r ∈ rules, r.LiftedFrom owner (parent :: rules.map (·.name)))
    (h' : ∀ r ∈ others, r.LiftedFrom owner (parent :: others.map (·.name))) :
    ∀ r ∈ rules ++ others, r.LiftedFrom owner (parent :: (rules ++ others).map (·.name)) := by
  intro r hr
  rw [List.map_append]
  rcases List.mem_append.mp hr with hr | hr
  · exact (h r hr).mono (List.cons_subset_cons _ (List.subset_append_left _ _))
  · exact (h' r hr).mono (List.cons_subset_cons _ (List.subset_append_right _ _))

mutual

theorem Primary.LiftsTo.liftedFrom : ∀ {parent p atom rules},
    Primary.LiftsTo owner parent p atom rules →
    ∀ r ∈ rules, r.LiftedFrom owner (parent :: rules.map (·.name))
  | _, _, _, _, .terminal _ _ => by simp
  | _, _, _, _, .pattern _ _ => by simp
  | _, _, _, _, .name _ _ => by simp
  | parent, _, _, _, @Primary.LiftsTo.bracketed _ _ _ bracket k _ _ _ h => by
    intro r hr
    rcases List.mem_cons.mp hr with rfl | hr
    · exact ⟨rfl, ⟨bracket, rfl⟩, parent, List.mem_cons_self, k, rfl⟩
    · exact (h.liftedFrom r hr).mono (List.subset_cons_self _ _)

theorem Primary.AllLiftTo.liftedFrom : ∀ {parent ps atoms rules},
    Primary.AllLiftTo owner parent ps atoms rules →
    ∀ r ∈ rules, r.LiftedFrom owner (parent :: rules.map (·.name))
  | _, _, _, _, .nil _ => by simp
  | _, _, _, _, .cons hp hrest => liftedFrom_append hp.liftedFrom hrest.liftedFrom

theorem Definitions.LiftTo.liftedFrom : ∀ {parent d alts rules},
    Definitions.LiftTo owner parent d alts rules →
    ∀ r ∈ rules, r.LiftedFrom owner (parent :: rules.map (·.name))
  | _, _, _, _, .nil _ => by simp
  | _, _, _, _, .cons halt hrest => liftedFrom_append halt.liftedFrom hrest.liftedFrom

end

/-! ### Names of brackets -/

theorem Rule.sublist_names (rules : List Rule) :
    ((rules.filterMap bracket?).map (·.2)).Sublist (rules.map (·.name)) := by
  induction rules with
  | nil => exact .slnil
  | cons r rest ih =>
    rcases hkind : r.kind with _ | kind
    · have hnone : r.bracket? = none := by rw [bracket?, hkind]; rfl
      rw [List.filterMap_cons_none hnone]
      exact ih.cons _
    · have hsome : r.bracket? = some (kind, r.name) := by rw [bracket?, hkind]; rfl
      rw [List.filterMap_cons_some hsome]
      exact ih.cons_cons _

omit [Pattern.Engine] in
theorem filter_eq_singleton {α β : Type} [DecidableEq β] {l : List (α × β)} {p : α × β}
    (hnodup : (l.map (·.2)).Nodup) (hp : p ∈ l) : l.filter (·.2 = p.2) = [p] := by
  induction l with
  | nil => cases hp
  | cons q rest ih =>
    obtain ⟨hq, hrest⟩ := List.nodup_cons.mp hnodup
    rcases List.mem_cons.mp hp with rfl | hp
    · have hnone : rest.filter (·.2 = p.2) = [] := by
        rw [List.filter_eq_nil_iff]
        intro q' hq' heq
        exact hq (List.mem_map.mpr ⟨q', hq', of_decide_eq_true heq⟩)
      rw [List.filter_cons_of_pos (by simp), hnone]
    · have hne : q.2 ≠ p.2 := fun heq => hq (List.mem_map.mpr ⟨p, hp, heq.symm⟩)
      rw [List.filter_cons_of_neg (by simpa using hne)]
      exact ih hrest hp

/-! ### Statements -/

namespace Statement.Makes

variable {s : Statement} {rules : List Rule}

/-- A name that is written in a statement is a reference of one of its rules. -/
theorem exists_reference (h : s.Makes rules) {name : String}
    (hname : name ∈ Definitions.references s.definitions) : ∃ r ∈ rules, name ∈ r.references := by
  obtain ⟨alts, below, hlift, rfl⟩ := h
  have hatom : ∀ alts : List Alternative, Atom.reference name ∈ alts.flatten →
      name ∈ alts.flatten.filterMap Atom.reference? :=
    fun alts hmem => List.mem_filterMap.mpr ⟨_, hmem, rfl⟩
  rcases hlift.mem_references.mp hname with hmem | ⟨r, hr, hmem⟩
  · exact ⟨s.rule alts, List.mem_cons_self, hatom _ hmem⟩
  · exact ⟨r, List.mem_cons_of_mem _ hr, hatom _ hmem⟩

/-- The rules of a statement belong to one of them. -/
theorem home_mem (h : s.Makes rules) {r : Rule} (hr : r ∈ rules) :
    r.home ∈ rules.map (·.name) := by
  obtain ⟨alts, below, hlift, rfl⟩ := h
  rcases List.mem_cons.mp hr with rfl | hmem
  · exact List.mem_cons_self
  · rw [Rule.home, (hlift.liftedFrom r hmem).owner_eq]
    dsimp only
    split
    · exact List.mem_map_of_mem hr
    · exact List.mem_cons_self

end Statement.Makes

/-- A name that is written in a text and is that of no rule keeps the text from compiling, if
nothing else is wrong with the statements. -/
theorem Grammar.compile_of_unresolved {text : List Char} {raws : List (List Char)} {b : Builder}
    (hraws : Source.readStatements text = .ok raws) (hb : Build.statements raws = .ok b)
    {s : Statement} (hs : s ∈ Statement.ofText text) {name : String}
    (hname : name ∈ Definitions.references s.definitions) (hno : name ∉ b.order) :
    ∃ fault, Grammar.compile text = .error (.grammar fault) ∧
      fault.cause.kind = .unresolvedReference := by
  -- the atom stands in one of the rules that its statement makes
  obtain ⟨statements, blocks, hreads, hblocks, hrules, horder, -⟩ := Build.statements_eq_ok hb
  rw [Statement.ofText, hraws] at hs
  dsimp only at hs
  rw [Statement.filterMap_read hreads] at hs
  obtain ⟨block, hblock, hmakes⟩ := exists_of_forall₂_left hblocks hs
  obtain ⟨r, hr, hreference⟩ := hmakes.exists_reference hname
  -- the reference is unresolved, and the report of it finds the statement it stands in
  have hunresolved : Builder.unresolved blocks.flatten ≠ [] := by
    intro hnil
    rw [horder] at hno
    exact hno (Builder.unresolved_eq_nil_iff.mp hnil r (List.mem_flatten_of_mem hblock hr) name
      hreference)
  -- and the rules of a block are reckoned to a rule of the same block
  have hhomes : ∀ r ∈ blocks.flatten, r.home ∈ blocks.flatten.map (·.name) := by
    intro r hr
    obtain ⟨block, hblock, hr⟩ := List.mem_flatten.mp hr
    obtain ⟨s, -, hmakes⟩ := exists_of_forall₂_right hblocks hblock
    exact List.map_subset _ (fun r' hr' => List.mem_flatten_of_mem hblock hr')
      (hmakes.home_mem hr)
  obtain ⟨fault, hfreeze, hkind⟩ := Builder.freeze_of_unresolved hrules hhomes hunresolved
  refine ⟨fault, ?_, hkind⟩
  rw [Grammar.compile, hraws]
  dsimp only
  rw [Grammar.ofStatements, hb]
  exact hfreeze

/-! ### Grammars -/

namespace Grammar.ConsistsOf

variable {g : Grammar} {statements : List Statement}

/-- A rule of the grammar is that of a statement or that of a bracket. -/
theorem eq_rule_or_liftedFrom (h : g.ConsistsOf statements) {r : Rule} (hr : r ∈ g.rules) :
    (∃ s ∈ statements, ∃ alts, r = s.rule alts) ∨ ∃ owner, r.LiftedFrom owner g.names := by
  obtain ⟨s, hs, alts, below, hlift, hmem, hblock⟩ := h.exists_statement hr
  rcases List.mem_cons.mp hmem with rfl | hmem
  · exact Or.inl ⟨s, hs, alts, rfl⟩
  · refine Or.inr ⟨s.name, (hlift.liftedFrom r hmem).mono ?_⟩
    exact List.map_subset (·.name) (fun r' hr' => hblock r' hr' : s.rule alts :: below ⊆ g.rules)

/-- Rules of brackets are lifted, those of statements are not. -/
theorem liftedFrom_of_isLifted (h : g.ConsistsOf statements) {r : Rule} (hr : r ∈ g.rules)
    (hlifted : r.isLifted = true) : ∃ owner, r.LiftedFrom owner g.names := by
  rcases h.eq_rule_or_liftedFrom hr with ⟨s, -, alts, rfl⟩ | hfrom
  · cases hlifted
  · exact hfrom

/-- A reference is to a declared name or to the rule of a bracket. -/
theorem mem_declared_or_lifted (h : g.ConsistsOf statements) {name : String}
    (hname : name ∈ g.names) :
    name ∈ statements.map (·.name) ∨
      ∃ r ∈ g.rules, r.name = name ∧ ∃ owner, r.LiftedFrom owner g.names := by
  obtain ⟨r, hr, rfl⟩ := List.mem_map.mp hname
  rcases h.eq_rule_or_liftedFrom hr with ⟨s, hs, alts, rfl⟩ | hfrom
  · exact Or.inl (List.mem_map_of_mem hs)
  · exact Or.inr ⟨r, hr, rfl, hfrom⟩

/-- No two brackets have rules with the same name. -/
theorem nodup_brackets (h : g.ConsistsOf statements) :
    ((g.rules.flatMap Rule.brackets).map (·.2)).Nodup := by
  refine (h.brackets_perm.map _).nodup_iff.mpr (h.nodup.sublist ?_)
  exact Rule.sublist_names g.rules

/-- The bracket of a lifted rule is the only one with its name. -/
theorem filter_brackets_eq (h : g.ConsistsOf statements) {r : Rule} (hr : r ∈ g.rules)
    {kind : String} (hkind : r.kind = some kind) :
    (g.rules.flatMap Rule.brackets).filter (·.2 = r.name) = [(kind, r.name)] := by
  have hmem : (kind, r.name) ∈ g.rules.flatMap Rule.brackets := by
    refine h.brackets_perm.mem_iff.mpr (List.mem_filterMap.mpr ⟨r, hr, ?_⟩)
    rw [Rule.bracket?, hkind]
    rfl
  exact filter_eq_singleton h.nodup_brackets hmem

end Grammar.ConsistsOf

/-- **What references of a grammar refer to.**  In the grammar of a text they refer to names that
the text declares or to rules of brackets; the rule of a bracket has a name that is not declared,
and no other bracket has the same rule.  If nothing is wrong with the statements of a text but that
a name in them is that of no rule, this is the fault that is reported. -/
theorem Grammar.references_resolve (text : List Char) :
    (∀ g, Grammar.compile text = .ok g →
      (∀ r ∈ g.rules, ∀ name, Atom.reference name ∈ r.alts.flatten →
        name ∈ declaredIn text ∨
          ∃ r' ∈ g.rules, r'.name = name ∧ ∃ owner, r'.LiftedFrom owner g.names) ∧
      (∀ r ∈ g.rules, r.isLifted = true → r.name ∉ declaredIn text ∧
        ∃ kind, r.kind = some kind ∧
          (g.rules.flatMap Rule.brackets).filter (·.2 = r.name) = [(kind, r.name)])) ∧
    (∀ raws b, Source.readStatements text = .ok raws → Build.statements raws = .ok b →
      ∀ s ∈ Statement.ofText text, ∀ name ∈ Definitions.references s.definitions, name ∉ b.order →
        ∃ fault, Grammar.compile text = .error (.grammar fault) ∧
          fault.cause.kind = .unresolvedReference) := by
  refine ⟨fun g h => ?_, fun raws b hraws hb s hs name hname hno =>
    compile_of_unresolved hraws hb hs hname hno⟩
  have hg := Grammar.consistsOf_of_compile h
  constructor
  · -- a reference has a rule, which is that of a statement or of a bracket
    intro r hr name hatom
    exact hg.mem_declared_or_lifted
      (hg.resolved r hr name (List.mem_filterMap.mpr ⟨_, hatom, rfl⟩))
  · -- the rule of a bracket is the target of that bracket alone
    intro r hr hlifted
    obtain ⟨owner, hfrom⟩ := hg.liftedFrom_of_isLifted hr hlifted
    obtain ⟨bracket, hkind⟩ := hfrom.kind_eq
    exact ⟨hg.lifted_fresh r hr hlifted, bracket.word, hkind, hg.filter_brackets_eq hr hkind⟩

end AnyEngine

attribute [local instance] Pattern.Engine.verbatim

/-- A text that refers to the rule of a bracket by its name. -/
def strayText : List Char :=
  ['X', ' ', '=', ' ', '[', '"', 'a', '"', ']', ',', ' ',
    'X', 'S', 'u', 'b', 'D', 'e', 'f', '1', ';']

/-- The grammar of `strayText`, which has a rule for the name though nothing declares it. -/
def strayGrammar : Grammar :=
  { rules := [
      ⟨"X", [[.lifted .optional "XSubDef1", .reference "XSubDef1"]], "X=[\"a\"],XSubDef1",
        none, none⟩,
      ⟨"XSubDef1", [[.terminal "a"]], "XSubDef1=\"a\"", some "X", some "optional"⟩]
    nodeTypes := ["X"] }

theorem readStatements_strayText : Source.readStatements strayText = .ok [strayText.dropLast] := by
  cbv

theorem compile_strayText : Grammar.compile strayText = .ok strayGrammar :=
  Grammar.compile_eq_ok_iff.mpr ⟨_, ⟨["X"], strayGrammar.rules.map Rule.slot, [("X", 1)]⟩,
    readStatements_strayText, by cbv, rfl⟩

theorem declaredIn_strayText : declaredIn strayText = ["X"] := by
  rw [declaredIn, Statement.ofText, readStatements_strayText]
  cbv

/-- A grammar can have a reference to a name that is not declared. -/
theorem exists_undeclared_reference :
    ¬ ∀ (text : List Char) (g : Grammar), Grammar.compile text = .ok g → ∀ r ∈ g.rules,
      ∀ name, Atom.reference name ∈ r.alts.flatten → name ∈ declaredIn text := by
  intro h
  have hmem := h strayText strayGrammar compile_strayText _ List.mem_cons_self "XSubDef1"
    (by decide)
  -- only the bracket's rule has the name, and no statement declares it
  rw [declaredIn_strayText] at hmem
  exact absurd hmem (by decide)

theorem Grammar.references_resolve_strayText :
    ∃ r ∈ strayGrammar.rules, r.name = "XSubDef1" ∧ r.isLifted = true ∧
      r.name ∉ declaredIn strayText := by
  obtain ⟨-, hlifted⟩ := (references_resolve strayText).1 strayGrammar compile_strayText
  have hr : (strayGrammar.rules[1]) ∈ strayGrammar.rules := List.getElem_mem _
  exact ⟨_, hr, rfl, rfl, (hlifted _ hr rfl).1⟩

end Ebnf
