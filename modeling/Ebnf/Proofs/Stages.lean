import Ebnf.Proofs.Definition.Literals

/-!
# The stages of compiling

A text is cut into statements, the statements are read one after the other, and at last references
and names are checked.  The report is that of the first stage in which something is wrong.

## Main definitions

* `rulesOf` — the rules of statements.
* `WellFormed` — statements are written as such and declare different names.
* `NodeType.Enumerable` — names that make node types.
* `Grammar.Parses` — a text is cut into well-formed statements.
* `Grammar.FailsWith` — **what is reported, stage by stage.**

## Main results

* `Grammar.ofStatements_of_wellFormed` — what becomes of well-formed statements.
* `Grammar.compile_spec` — **which texts compile, and what is reported of the others.**
-/

namespace Ebnf

open Source (dropBlanks CutInto BreaksOff)

/-! ### Node types -/

namespace NodeType

/-- The names make node types: those between single underscores are accepted ones, no member has a
name that none may have, and no name stands for a part of the enumeration. -/
structure Enumerable (names : List String) : Prop where
  accepted : ∀ name ∈ names, isSunder name.toList = true →
    isPrivate name.toList = true ∨ name ∈ acceptedSunders
  valid : ∀ name ∈ invalidNames, name ∉ names
  slots : "__slots__" ∉ names
  cell : "__classcell__" ∉ names
  /-- The steps that make members are only taken if there is one. -/
  steps : (∃ name ∈ names, isMember name = .ok true) → ∀ name ∈ names, name ∉ stepNames
  order : ∀ name ∈ names, name ∉ orderNames

theorem exists_isMember_iff {name : String} : (∃ b, isMember name = .ok b) ↔
    (isSunder name.toList = true → isPrivate name.toList = true ∨ name ∈ acceptedSunders) := by
  unfold isMember
  split_ifs with hprivate hsunder haccepted <;> simp [*]

/-- The names that no member may have are not set apart. -/
theorem isMember_of_mem_invalidNames : ∀ name ∈ invalidNames, isMember name = .ok true := by
  decide

theorem enumerable_iff {names : List String} :
    Enumerable names ↔ ∃ types, nodeTypes names = .ok types := by
  have hvalid : (∀ name ∈ invalidNames, name ∉ names.filter (isMember · = .ok true)) ↔
      ∀ name ∈ invalidNames, name ∉ names := by
    refine forall₂_congr fun name hname => not_congr ?_
    rw [List.mem_filter, decide_eq_true (isMember_of_mem_invalidNames name hname)]
    exact and_iff_left rfl
  have hsteps : (names.filter (isMember · = .ok true) = [] ∨ ∀ name ∈ names, name ∉ stepNames) ↔
      ((∃ name ∈ names, isMember name = .ok true) → ∀ name ∈ names, name ∉ stepNames) := by
    rw [List.filter_eq_nil_iff, or_iff_not_imp_left]
    simp only [decide_eq_true_eq, not_forall, not_not, exists_prop]
  simp only [nodeTypes_eq_ok_iff, members_eq_ok_iff, enumerationFault?_eq_none_iff]
  constructor
  · rintro ⟨haccepted, hinvalid, hslots, hcell, hstep, horder⟩
    exact ⟨_, ⟨fun name hname => exists_isMember_iff.mpr (haccepted name hname), rfl,
      hvalid.mpr hinvalid, hslots⟩, hcell, hsteps.mpr hstep, horder⟩
  · rintro ⟨_, ⟨haccepted, rfl, hinvalid, hslots⟩, hcell, hstep, horder⟩
    exact ⟨fun name hname => exists_isMember_iff.mp (haccepted name hname), hvalid.mp hinvalid,
      hslots, hcell, hsteps.mp hstep, horder⟩

/-- A name that stands for the order of members is accepted, but it breaks the enumeration. -/
example : members ["_order_"] = .ok [] ∧
    nodeTypes ["_order_"] = .error (.enumeration (.order [] "_order_")) :=
  ⟨rfl, rfl⟩

end NodeType

variable [Pattern.Engine]

/-! ### Well-formed statements -/

/-- The rules of statements, block by block, whether references in them have rules or not. -/
def rulesOf (raws : List (List Char)) : List Rule := raws.flatMap (blockOf (declaredNames raws))

/-- Each statement is written as one, and no name is declared by two. -/
structure WellFormed (raws : List (List Char)) : Prop where
  isStatement : ∀ raw ∈ raws, ∃ name d, IsStatement name d (dropBlanks raw)
  nodup : (declaredNames raws).Nodup

theorem wellFormed_iff {declared : List String} {raws : List (List Char)} :
    firstFault? declared [] raws = none ↔ WellFormed raws := by
  rw [firstFault?_eq_none_iff]
  constructor
  · rintro ⟨h, hnodup, -⟩
    exact ⟨h, hnodup⟩
  · rintro ⟨h, hnodup⟩
    exact ⟨h, hnodup, fun _ _ => List.not_mem_nil⟩

/-- The rules that are not lifted are those of the names declared. -/
theorem topLevel_blocks {declared : List String} {raws : List (List Char)}
    (h : ∀ raw ∈ raws, ∃ name d, IsStatement name d (dropBlanks raw)) :
    ((raws.flatMap (blockOf declared)).filter (!·.isLifted)).map (·.name) = declaredNames raws := by
  induction raws with
  | nil => rfl
  | cons raw rest ih =>
    obtain ⟨⟨name, d, hstatement⟩, hrest⟩ := List.forall_mem_cons.mp h
    have hbelow : (Definitions.lifted (nextNumber declared) name name 0 d).rules.filter
        (!·.isLifted) = [] := by
      rw [List.filter_eq_nil_iff]
      intro r hr
      rw [Rule.isLifted, Definitions.owner_lifted d name 0 r hr]
      simp
    rw [List.flatMap_cons, List.filter_append, List.map_append, ih hrest, declaredNames_cons,
      declaredName?_of_isStatement hstatement, blockOf_of_read hstatement.read_eq, Statement.block]
    dsimp only
    rw [List.filter_cons_of_pos (by rfl), hbelow]
    rfl

/-- Every rule belongs to the rule of a statement. -/
theorem home_mem_blocks {declared : List String} {raws : List (List Char)} :
    ∀ r ∈ raws.flatMap (blockOf declared),
      r.home ∈ (raws.flatMap (blockOf declared)).map (·.name) := by
  intro r hr
  obtain ⟨raw, hraw, hr⟩ := List.mem_flatMap.mp hr
  have hsub : (blockOf declared raw).map (·.name) ⊆
      (raws.flatMap (blockOf declared)).map (·.name) :=
    List.map_subset _ fun r hr => List.mem_flatMap.mpr ⟨raw, hraw, hr⟩
  refine hsub ?_
  rcases hread : Statement.read raw with fault | s
  · rw [blockOf, hread] at hr
    cases hr
  · rw [blockOf_of_read hread] at hr ⊢
    rcases List.mem_cons.mp hr with rfl | hbelow
    · exact List.mem_cons_self
    · rw [Rule.home, Definitions.owner_lifted _ _ _ r hbelow]
      dsimp only
      split
      · exact List.mem_map_of_mem hr
      · exact List.mem_cons_self

namespace Grammar

/-! ### Statements -/

theorem ofStatements_of_fault {raws : List (List Char)} {fault : Fault}
    (h : firstFault? (declaredNames raws) [] raws = some fault) :
    ofStatements raws = .error (.grammar fault) := by
  rcases Build.statements_eq raws with ⟨b, hnone, -⟩ | ⟨fault', hfault, hstatements⟩
  · rw [hnone] at h
    cases h
  · rw [hfault] at h
    cases h
    rw [ofStatements, hstatements]
    rfl

/-- Of well-formed statements the references are checked and then the names, so nothing that is read
can fail any more. -/
theorem ofStatements_of_wellFormed {raws : List (List Char)} (hne : raws ≠ [])
    (h : WellFormed raws) :
    ofStatements raws = match Builder.checkReferences (rulesOf raws) with
      | .error fault => .error fault
      | .ok () => (Ebnf.nodeTypes (declaredNames raws)).map (⟨rulesOf raws, ·⟩) := by
  rcases Build.statements_eq raws with ⟨b, -, hb⟩ | ⟨fault, hfault, -⟩
  · have hslots := Build.slots_of_statements hb
    have hnil : b.slots ≠ [] := by
      intro hnil
      rw [hslots, List.map_eq_nil_iff, List.flatMap_eq_nil_iff] at hnil
      obtain ⟨raw, hraw⟩ := List.exists_mem_of_ne_nil _ hne
      obtain ⟨name, d, hstatement⟩ := h.isStatement raw hraw
      have hblock := hnil raw hraw
      rw [blockOf_of_read hstatement.read_eq] at hblock
      cases hblock
    rw [ofStatements, hb]
    change b.freeze = _
    rw [Builder.freeze_of_rules hnil (Builder.rules_eq_ok hslots), topLevel_blocks h.isStatement]
    rfl
  · rw [wellFormed_iff.mpr h] at hfault
    cases hfault

/-! ### Texts -/

/-- The text is cut into well-formed statements, and there are some. -/
structure Parses (text : List Char) (raws : List (List Char)) : Prop where
  cutInto : CutInto text raws
  ne_nil : raws ≠ []
  wellFormed : WellFormed raws

/-- Every reference in the rules is to one of them. -/
def AllResolved (rules : List Rule) : Prop :=
  ∀ r ∈ rules, ∀ name ∈ r.references, name ∈ rules.map (·.name)

/-- What is reported of a text, stage by stage. Each stage presumes that those before it found
nothing wrong. -/
inductive FailsWith (text : List Char) : BuildFault → Prop
  /-- A comment or a literal is open at the end of the text. -/
  | breaksOff {fault : Source.TextFault} (h : BreaksOff text fault) :
    FailsWith text (.grammar (.ofText fault))
  /-- The statements before one are well-formed, and it is not, or it declares a name anew. -/
  | statement {before after : List (List Char)} {raw : List Char} {fault : Fault}
    (hcut : CutInto text (before ++ raw :: after)) (hbefore : WellFormed before)
    (h : faultOf? (declaredNames (before ++ raw :: after)) (declaredNames before) raw
      = some fault) : FailsWith text (.grammar fault)
  /-- There are no statements. -/
  | empty (hcut : CutInto text []) : FailsWith text (.grammar ⟨.emptyGrammar, none⟩)
  /-- There are references without a rule. -/
  | unresolved {raws : List (List Char)} {home name : String}
    {others texts : List (String × String)} (hparses : Parses text raws)
    (hmissing : Builder.unresolved (rulesOf raws) = (home, name) :: others)
    (htexts : Builder.statementsOf (rulesOf raws) (((home, name) :: others).map (·.1))
      = .ok texts) :
    FailsWith text (.grammar ⟨.unresolved ((home, name) :: others) texts, texts.lookup home⟩)
  /-- A name is not accepted as a node type. -/
  | refused {raws : List (List Char)} {fault : NodeTypeFault} (hparses : Parses text raws)
    (hresolved : AllResolved (rulesOf raws))
    (h : NodeType.members (declaredNames raws) = .error fault) :
    FailsWith text (.grammar ⟨.nodeType fault, none⟩)
  /-- The names break their enumeration. -/
  | broken {raws : List (List Char)} {members : List String} {fault : EnumerationFault}
    (hparses : Parses text raws) (hresolved : AllResolved (rulesOf raws))
    (hmembers : NodeType.members (declaredNames raws) = .ok members)
    (h : NodeType.enumerationFault? (declaredNames raws) members = some fault) :
    FailsWith text (.enumeration fault)

variable {text : List Char} {raws : List (List Char)}

theorem compile_of_cutInto (h : CutInto text raws) : compile text = ofStatements raws := by
  rw [compile, h.readStatements_eq]

/-- When all references have a rule, only the names can be at fault. -/
theorem Parses.compile_of_resolved (h : Parses text raws) (hresolved : AllResolved (rulesOf raws)) :
    compile text = (Ebnf.nodeTypes (declaredNames raws)).map (⟨rulesOf raws, ·⟩) := by
  have hcheck := Builder.checkReferences_eq_ok_iff.mpr
    (Builder.unresolved_eq_nil_iff.mpr hresolved)
  rw [compile_of_cutInto h.cutInto, ofStatements_of_wellFormed h.ne_nil h.wellFormed, hcheck]

/-- What is reported of a text is the fault of compiling it. -/
theorem FailsWith.compile_eq {fault : BuildFault} (h : FailsWith text fault) :
    compile text = .error fault := by
  -- up to the fault every stage passes
  cases h with
  | breaksOff h => rw [compile, h.readStatements_eq]
  | @statement before after raw fault hcut hbefore h =>
    rw [compile_of_cutInto hcut]
    exact ofStatements_of_fault
      (firstFault?_eq_some_iff.mpr ⟨before, raw, after, rfl, wellFormed_iff.mpr hbefore, h⟩)
  | empty hcut => rw [compile_of_cutInto hcut]; rfl
  | unresolved hparses hmissing htexts =>
    rw [compile_of_cutInto hparses.cutInto,
      ofStatements_of_wellFormed hparses.ne_nil hparses.wellFormed, Builder.checkReferences,
      hmissing]
    dsimp only
    rw [htexts]
    rfl
  | refused hparses hresolved h =>
    rw [hparses.compile_of_resolved hresolved, Ebnf.nodeTypes, h]
    rfl
  | broken hparses hresolved hmembers h =>
    rw [hparses.compile_of_resolved hresolved, Ebnf.nodeTypes, hmembers]
    dsimp only
    rw [h]
    rfl

/-- The statements to report are among those of the text. -/
theorem exists_statementsOf (raws : List (List Char)) : ∃ texts,
    Builder.statementsOf (rulesOf raws) ((Builder.unresolved (rulesOf raws)).map (·.1))
      = .ok texts := by
  refine Builder.statementsOf_eq_ok fun x hx => ?_
  obtain ⟨⟨_, _⟩, hpair, rfl⟩ := List.mem_map.mp hx
  obtain ⟨r, hr, rfl, -⟩ := Builder.mem_unresolved.mp hpair
  exact home_mem_blocks r hr

/-- One of the stages is the first in which something is wrong, or there is none and the text
compiles. -/
theorem compiles_or_failsWith (text : List Char) :
    (∃ raws, Parses text raws ∧ AllResolved (rulesOf raws) ∧
      NodeType.Enumerable (declaredNames raws)) ∨ ∃ fault, FailsWith text fault := by
  -- the stages in order: cutting, statements, references, members and enumeration
  rcases Source.cutInto_or_breaksOff text with ⟨raws, hcut⟩ | ⟨fault, hbreaks⟩
  swap
  · exact Or.inr ⟨_, .breaksOff hbreaks⟩
  rcases hfirst : firstFault? (declaredNames raws) [] raws with _ | fault
  swap
  · obtain ⟨before, raw, after, rfl, hbefore, hfault⟩ := firstFault?_eq_some_iff.mp hfirst
    exact Or.inr ⟨_, .statement hcut (wellFormed_iff.mp hbefore) hfault⟩
  rcases eq_or_ne raws [] with rfl | hne
  · exact Or.inr ⟨_, .empty hcut⟩
  have hparses : Parses text raws := ⟨hcut, hne, wellFormed_iff.mp hfirst⟩
  rcases hmissing : Builder.unresolved (rulesOf raws) with _ | ⟨⟨home, name⟩, others⟩
  swap
  · obtain ⟨texts, htexts⟩ := exists_statementsOf raws
    rw [hmissing] at htexts
    exact Or.inr ⟨_, .unresolved hparses hmissing htexts⟩
  have hresolved : AllResolved (rulesOf raws) := Builder.unresolved_eq_nil_iff.mp hmissing
  rcases hmembers : NodeType.members (declaredNames raws) with fault | members
  · exact Or.inr ⟨_, .refused hparses hresolved hmembers⟩
  rcases hbroken : NodeType.enumerationFault? (declaredNames raws) members with _ | fault
  · exact Or.inl ⟨raws, hparses, hresolved,
      NodeType.enumerable_iff.mpr ⟨members, nodeTypes_eq_ok_iff.mpr ⟨hmembers, hbroken⟩⟩⟩
  · exact Or.inr ⟨_, .broken hparses hresolved hmembers hbroken⟩

theorem Parses.exists_compile {raws : List (List Char)} (h : Parses text raws)
    (hresolved : AllResolved (rulesOf raws))
    (henumerable : NodeType.Enumerable (declaredNames raws)) : ∃ g, compile text = .ok g := by
  obtain ⟨types, htypes⟩ := NodeType.enumerable_iff.mp henumerable
  exact ⟨_, by rw [h.compile_of_resolved hresolved, htypes, Except.map]⟩

theorem exists_compile_iff : (∃ g, compile text = .ok g) ↔ ∃ raws, Parses text raws ∧
    AllResolved (rulesOf raws) ∧ NodeType.Enumerable (declaredNames raws) := by
  constructor
  · rintro ⟨g, hg⟩
    rcases compiles_or_failsWith text with h | ⟨fault, h⟩
    · exact h
    · rw [h.compile_eq] at hg
      cases hg
  · rintro ⟨raws, hparses, hresolved, henumerable⟩
    exact hparses.exists_compile hresolved henumerable

theorem compile_eq_error_iff {fault : BuildFault} :
    compile text = .error fault ↔ FailsWith text fault := by
  refine ⟨fun heq => ?_, FailsWith.compile_eq⟩
  rcases compiles_or_failsWith text with ⟨raws, hparses, hresolved, henumerable⟩ | ⟨fault', h⟩
  · obtain ⟨g, hg⟩ := hparses.exists_compile hresolved henumerable
    rw [hg] at heq
    cases heq
  · rw [h.compile_eq] at heq
    cases heq
    exact h

/-- A literal without end is reported only of a text that ends in one. -/
theorem FailsWith.breaksOff_of_kind {fault : Fault} (h : FailsWith text (.grammar fault))
    (hkind : fault.cause.kind = .unterminatedLiteral) :
    ∃ cut, BreaksOff text cut ∧ fault = .ofText cut := by
  cases h with
  | breaksOff h => exact ⟨_, h, rfl⟩
  | statement hcut _ h =>
    have hplain := hcut.after_eq _ (List.mem_append_right _ List.mem_cons_self)
    exact absurd hkind (kind_ne_of_faultOf? hplain h)
  | empty => cases hkind
  | unresolved => cases hkind
  | refused => cases hkind

/-- **Which texts compile, and what is reported of the others.**  A text compiles if and only if it
is cut into well-formed statements, of which there are some, every reference has a rule, and the
names make node types.  Otherwise the report is that of the first stage in which something is wrong,
and a literal without end is only reported by the first of them. -/
theorem compile_spec (text : List Char) :
    ((∃ g, compile text = .ok g) ↔ ∃ raws, Parses text raws ∧ AllResolved (rulesOf raws) ∧
      NodeType.Enumerable (declaredNames raws)) ∧
    (∀ fault, compile text = .error fault ↔ FailsWith text fault) ∧
    ∀ fault, compile text = .error (.grammar fault) → fault.cause.kind = .unterminatedLiteral →
      ∃ cut, BreaksOff text cut ∧ fault = .ofText cut :=
  ⟨exists_compile_iff, fun _ => compile_eq_error_iff,
    fun _ h => (compile_eq_error_iff.mp h).breaksOff_of_kind⟩

end Grammar
end Ebnf
