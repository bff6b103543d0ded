import Ebnf.Proofs.Description.Printable
import Ebnf.Proofs.Description.Recompiling
import Ebnf.Proofs.Match.Indirection

/-!
# Descriptions are grammar texts

The description of a grammar has a statement for each rule, and compiles again to a grammar in which
all of them, lifted ones included, are rules of statements and match as they did.  Only the names
can be at fault: those of lifted rules are node types now, and if there is a rule with the name of a
step that makes members, the first member breaks the enumeration.

## Main definitions

* `NodeType.endsInDigit` — what lifted names have in common, and special names have not.
* `Grammar.HidesStep` — a rule has the name of a step, and a lifted rule would be a member.

## Main results

* `NodeType.nodeTypes_of_endsInDigit`, `NodeType.nodeTypes_of_step` — whether names make node types
  when names that end in a digit are added to them.
* `Grammar.nodeTypes_names` — whether the names of all rules do.
* `Grammar.compile_describe` — **a description compiles to a grammar that matches alike.**
-/

namespace Ebnf

open Source (CutInto)
open Builder (liftedName)

/-! ### Node types -/

namespace NodeType

/-- Whether a name ends in a digit, as lifted names do. -/
def endsInDigit (name : String) : Bool := name.toList.getLast?.any Char.isDigit

theorem endsInDigit_liftedName (parent : String) (k : Nat) :
    endsInDigit (liftedName parent k) = true := by
  have hne : Nat.toDigits 10 k ≠ [] := Nat.toDigits_ne_nil
  have hdigit : (Nat.toDigits 10 k).getLast hne ∈ Nat.toDigits 10 k := List.getLast_mem hne
  rw [endsInDigit, toList_liftedName, ← List.append_assoc, List.getLast?_append_of_ne_nil _ hne,
    List.getLast?_eq_some_getLast hne]
  exact Nat.isDigit_of_mem_toDigits (by decide) (by decide) hdigit

/-- The names that are treated in a way of their own. -/
def specialNames : List String :=
  invalidNames ++ stepNames ++ orderNames ++ ["__slots__", "__classcell__"]

theorem endsInDigit_of_mem_specialNames : ∀ name ∈ specialNames, endsInDigit name = false := by
  decide

/-- A name that ends in a digit does not stand between underscores. -/
theorem isWrapped_of_endsInDigit {name : String} (h : endsInDigit name = true) (count : Nat) :
    isWrapped (count + 1) name.toList = false := by
  obtain ⟨c, hlast, hdigit⟩ := (Option.any_eq_true _ _).mp h
  have hne : c ≠ '_' := by
    rintro rfl
    revert hdigit
    decide
  rw [← List.head?_reverse] at hlast
  obtain ⟨rest, hrest⟩ := List.head?_eq_some_iff.mp hlast
  have hends : beginsWithUnderscores (count + 1) name.toList.reverse = false := by
    rw [beginsWithUnderscores, hrest, List.takeWhile_cons, if_neg (by simpa using hne)]
    simp
  rw [isWrapped, hends, Bool.and_false]

theorem isMember_of_endsInDigit {name : String} (h : endsInDigit name = true) :
    isMember name = .ok (!isPrivate name.toList) := by
  have hsunder : isSunder name.toList = false := isWrapped_of_endsInDigit h 0
  have hdunder : isDunder name.toList = false := isWrapped_of_endsInDigit h 1
  by_cases hprivate : isPrivate name.toList = true
  · rw [isMember, if_pos hprivate, hprivate]
    rfl
  · rw [isMember, if_neg hprivate, if_neg (by simp [hsunder]), hdunder]
    simp [hprivate]

section

variable {top names : List String}

theorem mem_of_mem_specialNames (hnames : ∀ name ∈ names, name ∈ top ∨ endsInDigit name = true)
    {name : String} (hspecial : name ∈ specialNames) (hmem : name ∈ names) : name ∈ top := by
  refine (hnames name hmem).resolve_right fun hdigit => ?_
  rw [endsInDigit_of_mem_specialNames name hspecial] at hdigit
  cases hdigit

/-- Names that end in a digit may be added to names that make members. -/
theorem members_of_endsInDigit (h : Enumerable top)
    (hnames : ∀ name ∈ names, name ∈ top ∨ endsInDigit name = true) :
    members names = .ok (names.filter (isMember · = .ok true)) := by
  refine members_eq_ok_iff.mpr ⟨fun name hname => ?_, rfl, fun name hinvalid hmem => ?_,
    fun hslots => ?_⟩
  · rcases hnames name hname with htop | hdigit
    · exact exists_isMember_iff.mpr (h.accepted name htop)
    · exact ⟨_, isMember_of_endsInDigit hdigit⟩
  · have hspecial : name ∈ specialNames := by simp [specialNames, hinvalid]
    exact h.valid name hinvalid
      (mem_of_mem_specialNames hnames hspecial (List.mem_of_mem_filter hmem))
  · exact h.slots (mem_of_mem_specialNames hnames (by decide) hslots)

/-- They make node types if there is no step or nothing to take it for. -/
theorem nodeTypes_of_endsInDigit (h : Enumerable top)
    (hnames : ∀ name ∈ names, name ∈ top ∨ endsInDigit name = true)
    (hsteps : ∀ step ∈ names, step ∈ stepNames → ∀ name ∈ names, isMember name ≠ .ok true) :
    ∃ types, nodeTypes names = .ok types := by
  refine ⟨_, nodeTypes_eq_ok_iff.mpr ⟨members_of_endsInDigit h hnames, ?_⟩⟩
  refine enumerationFault?_eq_none_iff.mpr ⟨fun hcell => ?_, ?_, fun name hmem horder => ?_⟩
  · exact h.cell (mem_of_mem_specialNames hnames (by decide) hcell)
  · by_cases hstep : ∃ step ∈ names, step ∈ stepNames
    · obtain ⟨step, hmem, hstep⟩ := hstep
      refine Or.inl (List.filter_eq_nil_iff.mpr fun name hname => ?_)
      simpa using hsteps step hmem hstep name hname
    · exact Or.inr fun name hname hmem => hstep ⟨name, hname, hmem⟩
  · have hspecial : name ∈ specialNames := by simp [specialNames, horder]
    exact h.order name (mem_of_mem_specialNames hnames hspecial hmem) horder

/-- The enumeration breaks at the first member if a name is that of a step. -/
theorem nodeTypes_of_step (h : Enumerable top)
    (hnames : ∀ name ∈ names, name ∈ top ∨ endsInDigit name = true) {step name : String}
    (hmem : step ∈ names) (hstep : step ∈ stepNames) (hname : name ∈ names)
    (hmember : isMember name = .ok true) : nodeTypes names = .error (.enumeration .step) := by
  have hcell : "__classcell__" ∉ names := fun hcell =>
    h.cell (mem_of_mem_specialNames hnames (by decide) hcell)
  have hne : names.filter (isMember · = .ok true) ≠ [] := by
    refine List.ne_nil_of_mem (List.mem_filter.mpr ⟨hname, ?_⟩)
    exact decide_eq_true hmember
  rw [nodeTypes, members_of_endsInDigit h hnames]
  dsimp only
  rw [enumerationFault?, if_neg hcell, if_pos ⟨hne, step, hmem, hstep⟩]

end

end NodeType

section AnyEngine

variable [Pattern.Engine]

namespace Grammar

variable {g : Grammar} {text : List Char}

/-- A rule of a statement has the name of a step that makes members, and a lifted rule has one that
a member could have. -/
def HidesStep (g : Grammar) : Prop :=
  (∃ name ∈ g.topLevel, name ∈ NodeType.stepNames) ∧
    ∃ name ∈ g.lifted, NodeType.isPrivate name.toList = false

instance (g : Grammar) : Decidable g.HidesStep := inferInstanceAs (Decidable (_ ∧ _))

theorem mem_names_iff {name : String} :
    name ∈ g.names ↔ name ∈ g.topLevel ∨ name ∈ g.lifted := by
  rw [names, topLevel, lifted, List.mem_map, List.mem_map, List.mem_map]
  constructor
  · rintro ⟨r, hr, rfl⟩
    cases hlifted : r.isLifted with
    | false => exact Or.inl ⟨r, List.mem_filter.mpr ⟨hr, by simp [hlifted]⟩, rfl⟩
    | true => exact Or.inr ⟨r, List.mem_filter.mpr ⟨hr, hlifted⟩, rfl⟩
  · rintro (⟨r, hr, rfl⟩ | ⟨r, hr, rfl⟩)
    · exact ⟨r, List.mem_of_mem_filter hr, rfl⟩
    · exact ⟨r, List.mem_of_mem_filter hr, rfl⟩

theorem ConsistsOf.endsInDigit_of_mem_lifted {statements : List Statement}
    (h : g.ConsistsOf statements) : ∀ name ∈ g.lifted, NodeType.endsInDigit name = true := by
  intro name hname
  obtain ⟨r, hr, rfl⟩ := List.mem_map.mp hname
  obtain ⟨hr, hlifted⟩ := List.mem_filter.mp hr
  obtain ⟨owner, hfrom⟩ := h.liftedFrom_of_isLifted hr hlifted
  obtain ⟨parent, -, k, hk⟩ := hfrom.name_eq
  rw [hk]
  exact NodeType.endsInDigit_liftedName parent k

theorem enumerable_topLevel (h : compile text = .ok g) : NodeType.Enumerable g.topLevel := by
  obtain ⟨raws, b, -, -, hfreeze⟩ := compile_eq_ok_iff.mp h
  obtain ⟨-, -, htypes⟩ := Builder.freeze_eq_ok hfreeze
  exact NodeType.enumerable_iff.mpr ⟨_, htypes⟩

/-- The names of all rules make node types, unless a step is hidden: then a statement has the name
of a step, which is taken only now that a lifted name is a member. -/
theorem nodeTypes_names (h : compile text = .ok g) :
    (¬g.HidesStep → ∃ types, Ebnf.nodeTypes g.names = .ok types) ∧
      (g.HidesStep → Ebnf.nodeTypes g.names = .error (.enumeration .step)) := by
  -- names of statements may be anything, but those of lifted rules end in a digit
  have htop := enumerable_topLevel h
  have hdigit := (consistsOf_of_compile h).endsInDigit_of_mem_lifted
  have hnames : ∀ name ∈ g.names, name ∈ g.topLevel ∨ NodeType.endsInDigit name = true :=
    fun name hname => (mem_names_iff.mp hname).imp_right (hdigit name)
  constructor
  · intro hno
    refine NodeType.nodeTypes_of_endsInDigit htop hnames ?_
    intro step hmem hstep name hname hmember
    have hspecial : step ∈ NodeType.specialNames := by simp [NodeType.specialNames, hstep]
    have hstepTop := NodeType.mem_of_mem_specialNames hnames hspecial hmem
    -- no rule of a statement is a member, so this one is lifted
    rcases mem_names_iff.mp hname with hnameTop | hlifted
    · exact htop.steps ⟨name, hnameTop, hmember⟩ step hstepTop hstep
    · rw [NodeType.isMember_of_endsInDigit (hdigit name hlifted)] at hmember
      exact hno ⟨⟨step, hstepTop, hstep⟩, name, hlifted, by simpa using hmember⟩
  · rintro ⟨⟨step, hmem, hstep⟩, name, hlifted, hprivate⟩
    refine NodeType.nodeTypes_of_step htop hnames (mem_names_iff.mpr (Or.inl hmem)) hstep
      (mem_names_iff.mpr (Or.inr hlifted)) ?_
    rw [NodeType.isMember_of_endsInDigit (hdigit name hlifted), hprivate]
    rfl

/-! ### Descriptions -/

/-- A grammar without lifted rules has no brackets. -/
theorem ConsistsOf.bracket?_eq_none {statements : List Statement} (h : g.ConsistsOf statements)
    (hlifted : g.lifted = []) :
    ∀ r ∈ g.rules, ∀ alt ∈ r.alts, ∀ atom ∈ alt, atom.bracket? = none := by
  intro r hr alt halt atom hatom
  rcases hbracket : atom.bracket? with _ | p
  · rfl
  · have hp : p ∈ r.brackets :=
      List.mem_filterMap.mpr ⟨atom, List.mem_flatten_of_mem halt hatom, hbracket⟩
    obtain ⟨before, after, heq⟩ := List.append_of_mem hr
    obtain ⟨r', hr', -, -, hr'lifted, -⟩ := h.exists_rule_after heq hp
    have hmem : r'.name ∈ g.lifted := by
      refine List.mem_map_of_mem (List.mem_filter.mpr ⟨?_, hr'lifted⟩)
      rw [heq]
      exact List.mem_append_right _ (List.mem_cons_of_mem _ hr')
    rw [hlifted] at hmem
    cases hmem

/-- Without brackets the written forms make rules with the same alternatives. -/
theorem map_block_printed {statements : List Statement} (h : g.ConsistsOf statements)
    (hprintable : ∀ r ∈ g.rules, r.Printable) (hlifted : g.lifted = []) (declared : List String) :
    (g.rules.flatMap fun r => r.printed.block declared).map (fun r => (r.name, r.alts))
      = g.rules.map fun r => (r.name, r.alts) := by
  have hblock : ∀ r ∈ g.rules, r.printed.block declared = [r.printed.rule r.alts] := by
    intro r hr
    obtain ⟨alts, below, hlift, hmakes⟩ : r.printed.Makes (r.printed.block declared) :=
      Statement.makes_block declared (hprintable r hr).writtenAs.readable
    obtain ⟨rfl, rfl⟩ := Rule.eq_of_liftTo_written hlift (h.bracket?_eq_none hlifted r hr)
    exact hmakes
  rw [List.flatMap_congr hblock, ← List.map_eq_flatMap, List.map_map]
  rfl

theorem rules_ne_nil (h : compile text = .ok g) : g.rules ≠ [] := by
  intro hnil
  obtain ⟨raws, b, -, hb, hfreeze⟩ := compile_eq_ok_iff.mp h
  obtain ⟨hrules, -, -⟩ := Builder.freeze_eq_ok hfreeze
  have hslots := Build.slots_of_statements hb
  rw [Builder.rules_eq_ok hslots, hnil] at hrules
  rw [Except.ok.inj hrules] at hslots
  rw [Builder.freeze_of_isEmpty hslots] at hfreeze
  cases hfreeze

/-- The statements of a description are the written forms of the rules. -/
theorem parses_describe (h : compile text = .ok g) (hprintable : ∀ r ∈ g.rules, r.Printable) :
    ∃ raws, Parses g.describe.toList raws ∧ List.Forall₂ Rule.IsWrittenAs g.rules raws := by
  obtain ⟨raws, hcut, hraws⟩ := exists_cutInto_describe hprintable
  have hwritten := forall₂_isWrittenAs hprintable hraws
  have hnodup := (consistsOf_of_compile h).nodup
  refine ⟨raws, ⟨hcut, ?_, wellFormed_of_isWrittenAs hwritten hnodup⟩, hwritten⟩
  rintro rfl
  exact rules_ne_nil h (List.forall₂_nil_right_iff.mp hwritten)

/-- What a description compiles to consists of the written forms of the rules. -/
theorem consistsOf_printed {rules : List Rule} {raws : List (List Char)}
    (hwritten : List.Forall₂ Rule.IsWrittenAs rules raws) (h : ofStatements raws = .ok g) :
    g.ConsistsOf (rules.map Rule.printed) := by
  obtain ⟨statements, hreads, hg⟩ := consistsOf_of_ofStatements h
  have hsame : statements = rules.map Rule.printed :=
    (Statement.filterMap_read hreads).symm.trans (Statement.filterMap_read (forall₂_read hwritten))
  rwa [← hsame]

/-- **A description compiles to a grammar that matches alike.**  If no name of a statement begins
with a star, the statements of a description declare all rules of the grammar in order, and it
compiles unless a step is hidden, which then breaks the enumeration of node types.  In the grammar
that it compiles to, all the rules are rules of statements, and if the matches of a rule in both
grammars come to an end, within whatever limits, they have the same success and remainder.  Without
brackets the rules have the same alternatives. -/
theorem compile_describe (h : compile text = .ok g)
    (hstar : ∀ name ∈ g.topLevel, name.toList.head? ≠ some '*') :
    (∃ raws, Source.readStatements g.describe.toList = .ok raws ∧
      raws.map declaredName? = g.names.map some) ∧
    (¬g.HidesStep → ∃ g', compile g.describe.toList = .ok g') ∧
    (g.HidesStep → compile g.describe.toList = .error (.enumeration .step)) ∧
    ∀ g', compile g.describe.toList = .ok g' →
      g'.topLevel = g.names ∧
      (∀ rule ∈ g.names, ∀ nesting nesting' input maxDepth maxDepth' result result',
        g.matchWithin nesting rule input maxDepth = .ok result →
        g'.matchWithin nesting' rule input maxDepth' = .ok result' →
        result.success = result'.success ∧ result.remainder = result'.remainder) ∧
      (g.lifted = [] →
        g'.rules.map (fun r => (r.name, r.alts)) = g.rules.map fun r => (r.name, r.alts)) := by
  have hg := consistsOf_of_compile h
  have hprintable := printable_of_compile h hstar
  obtain ⟨raws, hparses, hwritten⟩ := parses_describe h hprintable
  -- the description parses, and refers to the names that the grammar has
  have hresolved := allResolved_rulesOf hprintable hg.isResolved hwritten
  have hcompile := hparses.compile_of_resolved hresolved
  rw [declaredNames_of_isWrittenAs hwritten, ← names] at hcompile
  obtain ⟨hok, hstep⟩ := nodeTypes_names h
  refine ⟨⟨raws, hparses.cutInto.readStatements_eq, map_declaredName?_of_isWrittenAs hwritten⟩,
    fun hno => ?_, fun hhides => ?_, fun g' hg' => ?_⟩
  · -- then only the enumeration of all names decides whether it compiles
    obtain ⟨types, htypes⟩ := hok hno
    rw [htypes] at hcompile
    exact ⟨_, hcompile⟩
  · rw [hcompile, hstep hhides]
    rfl
  · -- the rules of the new grammar are those of its statements, which unfold alike
    rw [compile_of_cutInto hparses.cutInto] at hg'
    have hrules : g'.rules = rulesOf raws := rules_of_ofStatements hg'
    have hlike := appliesLike hg (consistsOf_printed hwritten hg')
    refine ⟨?_, fun rule hrule nesting nesting' input maxDepth maxDepth' result result' => ?_,
      fun hlifted => ?_⟩
    · rw [topLevel_of_compile hrules hparses.wellFormed.isStatement,
        declaredNames_of_isWrittenAs hwritten, names]
    · exact (hlike nesting).result_eq hrule
    · rw [hrules, rulesOf_of_isWrittenAs hwritten]
      exact map_block_printed hg hprintable hlifted _

end Grammar

end AnyEngine

namespace Grammar

attribute [local instance] Pattern.Engine.verbatim

/-- A bracket in a statement that declares the name of a step. -/
def stepText : List Char := ['_', '_', 'n', 'e', 'w', '_', '_', '=', '[', '"', 'a', '"', ']', ';']

/-- The grammar of the statement. -/
def stepGrammar : Grammar :=
  { rules := [
      ⟨"__new__", [[.lifted .optional "__new__SubDef1"]], "__new__=[\"a\"]", none, none⟩,
      ⟨"__new__SubDef1", [[.terminal "a"]], "__new__SubDef1=\"a\"", some "__new__",
        some "optional"⟩]
    nodeTypes := [] }

theorem compile_stepText : compile stepText = .ok stepGrammar :=
  compile_eq_ok_iff.mpr
    ⟨[['_', '_', 'n', 'e', 'w', '_', '_', '=', '[', '"', 'a', '"', ']']],
      ⟨["__new__"], stepGrammar.rules.map Rule.slot, [("__new__", 1)]⟩, by cbv, by cbv, rfl⟩

/-- A description with brackets in brackets, which compiles and matches alike, and one that hides a
step and does not compile. -/
theorem compile_describe_listText :
    (∃ g', compile listGrammar.describe.toList = .ok g' ∧
      g'.topLevel = ["L", "LSubDef1", "LSubDef1SubDef1", "I"] ∧
      ∀ result', g'.matchWithin 40 "L" "((x)x)y" 20 = .ok result' →
        result'.success = true ∧ result'.remainder = "y") ∧
      compile stepGrammar.describe.toList = .error (.enumeration .step) := by
  have hmatch : listGrammar.matchWithin 20 "L" "((x)x)y" 5 = .ok ⟨true, "y",
      .node "L" "((x)x)" [
        .node "I" "(x)" [.node "L" "(x)" [.node "I" "x" []]], .node "I" "x" []]⟩ := by
    cbv
  obtain ⟨-, hcompile, -, hsame⟩ := compile_describe compile_listText (by decide)
  obtain ⟨-, -, hstep, -⟩ := compile_describe compile_stepText (by decide)
  obtain ⟨g', hg'⟩ := hcompile (by decide)
  obtain ⟨htop, halike, -⟩ := hsame g' hg'
  refine ⟨⟨g', hg', htop, fun result' hmatch' => ?_⟩, hstep (by decide)⟩
  obtain ⟨hsuccess, hremainder⟩ := halike "L" (by decide) 20 40 _ 5 20 _ result' hmatch hmatch'
  exact ⟨hsuccess.symm, hremainder.symm⟩

end Grammar

end Ebnf
