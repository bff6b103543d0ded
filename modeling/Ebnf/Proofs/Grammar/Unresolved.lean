import Ebnf.Proofs.StatementAtFault

/-!
# References without a rule

When all statements have been added, every atom that refers to a name which no rule has is missed.
The report lists what is missed once, with the rule of the statement it stands in, in the order in
which it is found first; that of a bracket belongs to the statement around it, and a name that two
statements miss is reported for both.  The rule of a bracket is always there, so only names that are
written can be missing.

## Main definitions

* `ListsOnce` — a list without its repetitions, in the order of first occurrences.
* `absentReferences` — the references to names that no rule has, atom after atom.
* `Grammar.ReportsAbsent` — what a report of them looks like.

## Main results

* `listsOnce_foldl`, `ListsOnce.unique` — there is one such list, and it is found by adding what is
  new.
* `Builder.listsOnce_unresolved` — which references are reported as unresolved, and in which order.
* `Grammar.unresolved_spec` — **when references are reported, and which.**
-/

namespace Ebnf

open Source (dropBlanks)

/-! ### First occurrences -/

/-- The elements of `l` are listed once each.  Before an element stands in `listed` what stands
before its first occurrence in `l`. -/
structure ListsOnce {α : Type} (l listed : List α) : Prop where
  nodup : listed.Nodup
  mem_iff : ∀ a, a ∈ listed ↔ a ∈ l
  order : ∀ before a after, listed = before ++ a :: after →
    ∃ pre post, l = pre ++ a :: post ∧ a ∉ pre ∧ ∀ x, x ∈ pre ↔ x ∈ before

section ListsOnce

variable {α : Type} {l listed listed' : List α}

theorem ListsOnce.snoc_of_mem {a : α} (h : ListsOnce l listed) (ha : a ∈ listed) :
    ListsOnce (l ++ [a]) listed where
  nodup := h.nodup
  mem_iff := fun x => by
    rw [h.mem_iff, List.mem_append, List.mem_singleton]
    exact (or_iff_left_of_imp fun hx => hx ▸ (h.mem_iff a).mp ha).symm
  order := fun before x after heq => by
    obtain ⟨pre, post, rfl, hx, hpre⟩ := h.order before x after heq
    exact ⟨pre, post ++ [a], by simp, hx, hpre⟩

theorem ListsOnce.snoc_of_notMem {a : α} (h : ListsOnce l listed) (ha : a ∉ listed) :
    ListsOnce (l ++ [a]) (listed ++ [a]) where
  nodup := List.nodup_append.mpr ⟨h.nodup, List.nodup_singleton a, fun x hx y hy hxy =>
    ha (List.mem_singleton.mp hy ▸ hxy ▸ hx)⟩
  mem_iff := fun x => by rw [List.mem_append, List.mem_append, h.mem_iff]
  order := fun before x after heq => by
    rcases List.eq_nil_or_concat' after with rfl | ⟨after, y, rfl⟩
    · -- the new element is the last one
      obtain ⟨rfl, hx⟩ := List.append_inj' heq rfl
      obtain rfl := List.singleton_inj.mp hx
      exact ⟨l, [], rfl, fun hmem => ha ((h.mem_iff a).mpr hmem), fun x => (h.mem_iff x).symm⟩
    · rw [← List.cons_append, ← List.append_assoc] at heq
      obtain ⟨hlisted, -⟩ := List.append_inj' heq rfl
      obtain ⟨pre, post, rfl, hx, hpre⟩ := h.order before x after hlisted
      exact ⟨pre, post ++ [a], by simp, hx, hpre⟩

/-- Adding what is new, one after the other, lists everything once, in the order of first
appearance. -/
theorem listsOnce_foldl [BEq α] [LawfulBEq α] (l : List α) :
    ListsOnce l (l.foldl (fun seen x => if x ∈ seen then seen else seen ++ [x]) []) := by
  induction l using List.reverseRecOn with
  | nil =>
    refine ⟨List.nodup_nil, fun _ => Iff.rfl, fun before _ _ heq => ?_⟩
    cases before <;> cases heq
  | append_singleton l a ih =>
    rw [List.foldl_append, List.foldl_cons, List.foldl_nil]
    split
    · next ha => exact ih.snoc_of_mem ha
    · next ha => exact ih.snoc_of_notMem ha

/-- Where two lists begin alike they go on alike. -/
theorem ListsOnce.head_eq (h : ListsOnce l listed) (h' : ListsOnce l listed') {a a' : α}
    {before after after' : List α} (heq : listed = before ++ a :: after)
    (heq' : listed' = before ++ a' :: after') : a = a' := by
  have hnew : ∀ {listed after : List α} {a : α}, listed.Nodup → listed = before ++ a :: after →
      a ∉ before := by
    rintro _ after a hnodup rfl hmem
    exact (List.nodup_append.mp hnodup).2.2 a hmem a List.mem_cons_self rfl
  obtain ⟨pre, post, hl, -, hpre⟩ := h.order _ _ _ heq
  obtain ⟨pre', post', hl', -, hpre'⟩ := h'.order _ _ _ heq'
  rcases List.append_eq_append_iff.mp (hl.symm.trans hl') with ⟨mid, rfl, hmid⟩ | ⟨mid, rfl, hmid⟩
  · cases mid with
    | nil => exact (List.cons.inj hmid).1
    | cons x mid =>
      obtain ⟨rfl, -⟩ := List.cons.inj hmid
      exact absurd ((hpre' a).mp (by simp)) (hnew h.nodup heq)
  · cases mid with
    | nil => exact (List.cons.inj hmid).1.symm
    | cons x mid =>
      obtain ⟨rfl, -⟩ := List.cons.inj hmid
      exact absurd ((hpre a').mp (by simp)) (hnew h'.nodup heq')

/-- There is only one such list: the order of first appearance is fixed by the list itself. -/
theorem ListsOnce.unique (h : ListsOnce l listed) (h' : ListsOnce l listed') :
    listed = listed' := by
  have hperm : listed.Perm listed' := (List.perm_ext_iff_of_nodup h.nodup h'.nodup).mpr
    fun a => (h.mem_iff a).trans (h'.mem_iff a).symm
  -- what is left of both lists after a common beginning
  have hrest : ∀ before rest rest', listed = before ++ rest → listed' = before ++ rest' →
      rest.length = rest'.length → rest = rest' := by
    intro before rest
    induction rest generalizing before with
    | nil =>
      intro rest' _ _ hlength
      exact (List.length_eq_zero_iff.mp hlength.symm).symm
    | cons a rest ih =>
      intro rest' heq heq' hlength
      cases rest' with
      | nil => cases hlength
      | cons a' rest' =>
        obtain rfl := h.head_eq h' heq heq'
        rw [ih (before ++ [a]) rest' (by simpa using heq) (by simpa using heq')
          (Nat.succ.inj hlength)]
  exact hrest [] listed listed' rfl rfl hperm.length_eq

end ListsOnce

section AnyEngine

variable [Pattern.Engine]

/-! ### What is missing -/

/-- The references to names that none of the rules has: for each atom that refers to one, the rule
of the statement and the name, in the order of the rules and in each from left to right. -/
def absentReferences (rules : List Rule) : List (String × String) :=
  rules.flatMap fun r =>
    ((r.alts.flatten.filterMap Atom.reference?).filter (· ∉ rules.map (·.name))).map (r.home, ·)

namespace Builder

variable {rules : List Rule}

/-- What is reported as unresolved, and in which order: the rules in their order, and in each rule
its references. -/
theorem listsOnce_unresolved (rules : List Rule) :
    ListsOnce (absentReferences rules) (unresolved rules) := by
  have habsent : absentReferences rules = rules.flatMap fun r =>
      (r.references.filter fun name => !rules.any (·.name = name)).map (r.home, ·) := by
    refine List.flatMap_congr fun r _ => congrArg _ (List.filter_congr fun name _ => ?_)
    rw [Bool.eq_iff_iff]
    simp
  rw [unresolved, ← habsent]
  exact listsOnce_foldl _

/-- Each home is reported once, with the source of its rule. -/
theorem listsOnce_statementsOf {homes : List String} {texts : List (String × String)}
    (h : statementsOf rules homes = .ok texts) :
    ListsOnce homes (texts.map (·.1)) ∧ ∀ entry ∈ texts, entry.1 ∈ homes ∧
      ∃ r, rules.find? (·.name = entry.1) = some r ∧ entry.2 = r.source := by
  have hmap := forall₂_of_statementsOf h
  have hkeys : homes.foldl (fun seen home => if home ∈ seen then seen else seen ++ [home]) []
      = texts.map (·.1) := by
    rw [← List.forall₂_eq_eq_eq, List.forall₂_map_right_iff]
    exact hmap.imp fun _ _ hentry => hentry.1
  have honce := listsOnce_foldl homes
  rw [hkeys] at honce
  refine ⟨honce, fun entry hentry => ?_⟩
  obtain ⟨home, -, rfl, hfind⟩ := exists_of_forall₂_right hmap hentry
  exact ⟨(honce.mem_iff _).mp (List.mem_map_of_mem hentry), hfind⟩

end Builder

/-! ### Reports -/

omit [Pattern.Engine] in
theorem kind_ne_of_nodeTypes {names : List String} {fault : Fault}
    (h : nodeTypes names = .error (.grammar fault)) :
    fault.cause.kind ≠ .unresolvedReference := by
  rw [nodeTypes] at h
  split at h
  · cases h
    rintro ⟨⟩
  · split at h <;> cases h

namespace Grammar

variable {text : List Char} {raws : List (List Char)}

/-- What is reported of the rules of statements: the references to names that no rule has, and the
texts of the statements they stand in. -/
structure ReportsAbsent (raws : List (List Char)) (rules : List Rule)
    (missing statements : List (String × String)) (statement : Option String) : Prop where
  absent : ListsOnce (absentReferences rules) missing
  /-- The names missing are written as such, and are not those of brackets. -/
  written : ∀ pair ∈ missing,
    (∃ r ∈ rules, r.home = pair.1 ∧ Atom.reference pair.2 ∈ r.alts.flatten) ∧
      ∀ r ∈ rules, ∀ bracket, Atom.lifted bracket pair.2 ∉ r.alts.flatten
  keys : ListsOnce (missing.map (·.1)) (statements.map (·.1))
  texts : ∀ entry ∈ statements, ∃ raw ∈ raws, declaredName? raw = some entry.1 ∧
    entry.2 = String.ofList (dropBlanks raw)
  first : ∃ home name others text, missing = (home, name) :: others ∧
    (home, text) ∈ statements ∧ statement = some text

/-- The rule of a bracket is always there. -/
theorem Parses.mem_names_of_lifted (h : Parses text raws) {r : Rule} (hr : r ∈ rulesOf raws)
    {bracket : Bracket} {name : String} (hatom : Atom.lifted bracket name ∈ r.alts.flatten) :
    name ∈ (rulesOf raws).map (·.name) := by
  obtain ⟨raw, hraw, hr⟩ := List.mem_flatMap.mp hr
  obtain ⟨home, d, hstatement⟩ := h.wellFormed.isStatement raw hraw
  obtain ⟨hmakes, -⟩ := hstatement.makes_blockOf (declaredNames raws)
  have hbracket : (bracket.word, name) ∈ r.brackets := List.mem_filterMap.mpr ⟨_, hatom, rfl⟩
  obtain ⟨r', hr', hname, -⟩ := hmakes.exists_rule_of_bracket hr hbracket
  exact List.mem_map.mpr ⟨r', List.mem_flatMap.mpr ⟨raw, hraw, hr'⟩, hname⟩

/-- A name that is missing is written in a rule, and is not that of a bracket. -/
theorem Parses.written_of_unresolved (h : Parses text raws) {pair : String × String}
    (hpair : pair ∈ Builder.unresolved (rulesOf raws)) :
    (∃ r ∈ rulesOf raws, r.home = pair.1 ∧ Atom.reference pair.2 ∈ r.alts.flatten) ∧
      ∀ r ∈ rulesOf raws, ∀ bracket, Atom.lifted bracket pair.2 ∉ r.alts.flatten := by
  obtain ⟨r, hr, hhome, hname, hno⟩ := Builder.mem_unresolved.mp hpair
  have hlifted : ∀ r ∈ rulesOf raws, ∀ bracket, Atom.lifted bracket pair.2 ∉ r.alts.flatten := by
    intro r hr bracket hatom
    obtain ⟨r', hr', hname'⟩ := List.mem_map.mp (h.mem_names_of_lifted hr hatom)
    exact hno r' hr' hname'
  refine ⟨⟨r, hr, hhome.symm, ?_⟩, hlifted⟩
  obtain ⟨atom, hatom, hreference⟩ := List.mem_filterMap.mp hname
  cases atom with
  | terminal => cases hreference
  | pattern => cases hreference
  | reference =>
    cases hreference
    exact hatom
  | lifted bracket =>
    cases hreference
    exact absurd hatom (hlifted r hr bracket)

/-- What is reported when some reference has no rule. -/
theorem Parses.exists_reportsAbsent (h : Parses text raws) (hno : ¬AllResolved (rulesOf raws)) :
    ∃ missing statements statement,
      compile text = .error (.grammar ⟨.unresolved missing statements, statement⟩) ∧
        ReportsAbsent raws (rulesOf raws) missing statements statement := by
  obtain ⟨texts, htexts⟩ := exists_statementsOf raws
  rcases hmissing : Builder.unresolved (rulesOf raws) with _ | ⟨⟨home, name⟩, others⟩
  · exact absurd (Builder.unresolved_eq_nil_iff.mp hmissing) hno
  rw [hmissing] at htexts
  obtain ⟨hkeys, hentries⟩ := Builder.listsOnce_statementsOf htexts
  refine ⟨_, texts, _, (FailsWith.unresolved h hmissing htexts).compile_eq,
    hmissing ▸ Builder.listsOnce_unresolved _, fun pair hpair => ?_, hkeys,
    fun entry hentry => ?_, ?_⟩
  · -- each pair comes from an atom of a statement of the text
    rw [← hmissing] at hpair
    exact h.written_of_unresolved hpair
  · -- each statement shown is the one that declares the rule it is shown for
    obtain ⟨hhome, r, hfind, hsource⟩ := hentries entry hentry
    obtain ⟨⟨home', name'⟩, hpair, hhome'⟩ := List.mem_map.mp hhome
    rw [← hmissing] at hpair
    obtain ⟨raw, hraw, d, hstatement, -⟩ := h.exists_statement_of_unresolved hpair
    obtain rfl : home' = entry.1 := hhome'
    exact ⟨raw, hraw, declaredName?_of_isStatement hstatement,
      hsource.trans (h.source_eq hraw hstatement hfind)⟩
  · -- the fault carries the statement of the first pair
    obtain ⟨r, -, hlookup⟩ := Builder.lookup_statementsOf htexts List.mem_cons_self
    obtain ⟨before, after, heq, -⟩ := List.lookup_eq_some_iff.mp hlookup
    refine ⟨home, name, others, r.source, rfl, ?_, hlookup⟩
    rw [heq]
    exact List.mem_append_right _ List.mem_cons_self

/-- When all statements have been added, references are reported if and only if there are some that
no rule answers. -/
theorem Parses.compile_unresolved_iff (h : Parses text raws) :
    (∃ fault, compile text = .error (.grammar fault) ∧
      fault.cause.kind = .unresolvedReference) ↔ ¬AllResolved (rulesOf raws) := by
  constructor
  · rintro ⟨fault, hcompile, hkind⟩ hresolved
    rw [h.compile_of_resolved hresolved] at hcompile
    rcases htypes : Ebnf.nodeTypes (declaredNames raws) with fault' | types
    · rw [htypes] at hcompile
      cases hcompile
      exact kind_ne_of_nodeTypes htypes hkind
    · rw [htypes] at hcompile
      cases hcompile
  · intro hno
    obtain ⟨_, _, _, hcompile, -⟩ := h.exists_reportsAbsent hno
    exact ⟨_, hcompile, rfl⟩

theorem parses_of_statements {b : Builder} (hraws : Source.readStatements text = .ok raws)
    (hne : raws ≠ []) (hb : Build.statements raws = .ok b) : Parses text raws := by
  refine ⟨Source.readStatements_eq_ok_iff.mp hraws, hne, ?_⟩
  rcases Build.statements_eq raws with ⟨_, hnone, -⟩ | ⟨fault, -, hfault⟩
  · exact wellFormed_iff.mp hnone
  · rw [hb] at hfault
    cases hfault

/-- **When references are reported, and which.**  If all statements of a text can be added, and
there are some, then their rules stand in blocks, each behind the rule to which its references are
reckoned.  References are reported if and only if an atom refers to a name that none of the rules
has.  All of these are listed once, in the order in which they are found, with the statements they
stand in. -/
theorem unresolved_spec {b : Builder} (hraws : Source.readStatements text = .ok raws)
    (hne : raws ≠ []) (hb : Build.statements raws = .ok b) :
    ∃ rules, b.rules = .ok rules ∧
      (∃ block, rules = raws.flatMap block ∧ ∀ raw ∈ raws, IsBlock raw (block raw) ∧
        ∀ r ∈ block raw, declaredName? raw = some r.home) ∧
      ((∃ fault, compile text = .error (.grammar fault) ∧
          fault.cause.kind = .unresolvedReference) ↔
        ∃ r ∈ rules, ∃ atom ∈ r.alts.flatten, ∃ name, atom.reference? = some name ∧
          name ∉ rules.map (·.name)) ∧
      ∀ fault, compile text = .error (.grammar fault) →
        fault.cause.kind = .unresolvedReference →
        ∃ missing statements, fault.cause = .unresolved missing statements ∧
          ReportsAbsent raws rules missing statements fault.statement := by
  have h := parses_of_statements hraws hne hb
  refine ⟨rulesOf raws, Builder.rules_eq_ok (Build.slots_of_statements hb),
    ⟨_, rfl, fun raw hraw => ?_⟩, ?_, fun fault hcompile hkind => ?_⟩
  · -- the block of a statement is the rule it declares with those lifted from it
    obtain ⟨name, d, hstatement⟩ := h.wellFormed.isStatement raw hraw
    have hdeclared := declaredName?_of_isStatement hstatement
    refine ⟨?_, fun r hr => ?_⟩
    · rw [blockOf_of_read hstatement.read_eq]
      exact ⟨_, _, rfl, hdeclared, rfl, Definitions.owner_lifted _ _ _⟩
    · rw [(hstatement.makes_blockOf _).2 r hr]
      exact hdeclared
  · -- an atom with a name that no rule has is a reference left over
    rw [h.compile_unresolved_iff, AllResolved]
    simp only [Rule.references, List.mem_filterMap, not_forall, exists_prop]
    constructor
    · rintro ⟨r, hr, name, ⟨atom, hatom, hreference⟩, hno⟩
      exact ⟨r, hr, atom, hatom, name, hreference, hno⟩
    · rintro ⟨r, hr, atom, hatom, name, hreference, hno⟩
      exact ⟨r, hr, name, ⟨atom, hatom, hreference⟩, hno⟩
  · -- and there is only one fault for a text, so it is the one described
    obtain ⟨missing, statements, statement, hcompile', hreports⟩ :=
      h.exists_reportsAbsent (h.compile_unresolved_iff.mp ⟨fault, hcompile, hkind⟩)
    rw [hcompile'] at hcompile
    cases hcompile
    exact ⟨missing, statements, rfl, hreports⟩

end Grammar

end AnyEngine

namespace Grammar

attribute [local instance] Pattern.Engine.verbatim

/-- A statement with references in brackets. -/
def absentStatement : List Char := ['X', '=', '[', 'A', ',', '(', 'B', ')', ']', ',', 'A']

/-- A text that misses a name in two statements. -/
def absentText : List Char := absentStatement ++ [';', 'Y', '=', 'A', ';']

/-- The rules of its statements. -/
def absentRules : List Rule :=
  [⟨"X", [[.lifted .optional "XSubDef1", .reference "A"]], "X=[A,(B)],A", none, none⟩,
    ⟨"XSubDef1", [[.reference "A", .lifted .group "XSubDef1SubDef1"]], "XSubDef1=A,(B)", some "X",
      some "optional"⟩,
    ⟨"XSubDef1SubDef1", [[.reference "B"]], "XSubDef1SubDef1=B", some "X", some "group"⟩,
    ⟨"Y", [[.reference "A"]], "Y=A", none, none⟩]

theorem statements_absent : Build.statements [absentStatement, ['Y', '=', 'A']]
    = .ok ⟨["X", "Y"], absentRules.map Rule.slot, [("XSubDef1", 1), ("X", 1)]⟩ := by
  have hreadX : Statement.read absentStatement = .ok ⟨"X", [[.bracketed .optional
      [[.name ['A'], .bracketed .group [[.name ['B']]]]], .name ['A']]], "X=[A,(B)],A"⟩ := by
    cbv
  have hreadY : Statement.read ['Y', '=', 'A'] = .ok ⟨"Y", [[.name ['A']]], "Y=A"⟩ := by
    cbv
  have hdeclared : declaredNames [absentStatement, ['Y', '=', 'A']] = ["X", "Y"] := by
    cbv
  -- one statement after the other
  have hX : (Build.statement absentStatement).run (.empty ["X", "Y"]) = (.ok "X",
      ⟨["X", "Y"], (absentRules.take 3).map Rule.slot, [("XSubDef1", 1), ("X", 1)]⟩) := by
    rw [Build.statement, hreadX]
    rfl
  have hY : (Build.statement ['Y', '=', 'A']).run
      ⟨["X", "Y"], (absentRules.take 3).map Rule.slot, [("XSubDef1", 1), ("X", 1)]⟩ = (.ok "Y",
        ⟨["X", "Y"], absentRules.map Rule.slot, [("XSubDef1", 1), ("X", 1)]⟩) := by
    rw [Build.statement, hreadY]
    rfl
  rw [Build.statements, hdeclared, Build.run_statements_cons hX, Build.run_statements_cons hY]
  rfl

/-- References in brackets are reckoned to the statement, which lists each name once. -/
theorem unresolved_spec_absent : ∃ fault statements,
    compile absentText = .error (.grammar fault) ∧
      fault.cause = .unresolved [("X", "A"), ("X", "B"), ("Y", "A")] statements := by
  have hraws : Source.readStatements absentText = .ok [absentStatement, ['Y', '=', 'A']] := by
    cbv
  obtain ⟨rules, hrules, -, hiff, hreport⟩ :=
    unresolved_spec hraws (List.cons_ne_nil _ _) statements_absent
  obtain rfl : absentRules = rules := Except.ok.inj hrules
  obtain ⟨fault, hcompile, hkind⟩ := hiff.mpr ⟨_, List.mem_cons_self, .reference "A", by decide,
    "A", rfl, by decide⟩
  obtain ⟨missing, statements, hcause, hreports⟩ := hreport fault hcompile hkind
  have hmissing : missing = [("X", "A"), ("X", "B"), ("Y", "A")] :=
    hreports.absent.unique (listsOnce_foldl (absentReferences absentRules))
  exact ⟨fault, statements, hcompile, hmissing ▸ hcause⟩

end Grammar

end Ebnf
