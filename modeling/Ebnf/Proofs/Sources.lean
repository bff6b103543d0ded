import Ebnf.Proofs.Definition.Relifting
import Ebnf.Proofs.Description.Printable
import Ebnf.Proofs.Grammar.Declaring

/-!
# The texts of rules

Every rule keeps a text: that of its statement or, if it is the rule of a bracket, a text put
together from its name and what stands in the bracket.  The text is itself a statement, and adding
it to a new builder makes the rule again and below it the rules of the brackets inside, which get
the names they had although nothing is left of the statement around them.

## Main definitions

* `Rule.ReadFrom` — definitions that a rule was read from.

## Main results

* `Rule.ReadFrom.exists_run` — the text of a rule makes it again.
* `Rule.ReadFrom.mem_lifted_iff` — what is lifted out of a rule are the rules reached from it.
* `Grammar.exists_readFrom` — every rule of a grammar was read from some definitions.
* `Grammar.source_recreates` — **the text of every rule makes the rule again.**
-/

namespace Ebnf

open Source (dropBlanks)

section AnyEngine

variable [Pattern.Engine]

/-! ### From rule to rule -/

/-- The rules in pre-order are reached from those of the brackets at the outside. -/
theorem InPreorder.exists_reflTransGen {g : Grammar} {brackets : List (String × String)}
    {rules : List Rule} (h : InPreorder brackets rules)
    (hfind : ∀ r ∈ rules, g.find? r.name = some r) :
    ∀ r ∈ rules, ∃ bracket ∈ brackets, Relation.ReflTransGen g.Encloses bracket.2 r.name := by
  induction h with
  | nil => exact fun r hr => absurd hr List.not_mem_nil
  | @cons first kind others inside after hkind _ _ ihinside ihafter =>
    obtain ⟨hfirst, hrest⟩ := List.forall_mem_cons.mp hfind
    obtain ⟨hinside, hafter⟩ := List.forall_mem_append.mp hrest
    intro r hr
    rcases List.mem_cons.mp hr with rfl | hr
    · exact ⟨_, List.mem_cons_self, .refl⟩
    rcases List.mem_append.mp hr with hr | hr
    · -- the rule is reached from that of a bracket in the first rule
      obtain ⟨bracket, hbracket, hreach⟩ := ihinside hinside r hr
      exact ⟨_, List.mem_cons_self, .head ⟨first, hfirst, bracket.1, hbracket⟩ hreach⟩
    · obtain ⟨bracket, hbracket, hreach⟩ := ihafter hafter r hr
      exact ⟨bracket, List.mem_cons_of_mem _ hbracket, hreach⟩

/-- In order, nothing is reached from a rule but what stands below it. -/
theorem Rule.InOrder.mem_of_transGen {g : Grammar} {r : Rule} {below : List Rule}
    (h : Rule.InOrder (r :: below)) (hfind : ∀ r' ∈ r :: below, g.find? r'.name = some r')
    {name : String} (hreach : Relation.TransGen g.Encloses r.name name) :
    name ∈ below.map (·.name) := by
  -- a bracket in one of the rules has its rule below the first
  have hstep : ∀ r' ∈ r :: below, ∀ name, g.Encloses r'.name name →
      name ∈ below.map (·.name) := by
    rintro r' hr' name ⟨r'', hfind', kind, hmem⟩
    obtain rfl := Option.some.inj ((hfind r' hr').symm.trans hfind')
    rcases List.mem_cons.mp hr' with rfl | hr'
    · exact h.1 _ hmem
    · exact h.2.name_mem hr' hmem
  induction hreach with
  | single hencloses => exact hstep r List.mem_cons_self _ hencloses
  | tail _ hencloses ih =>
    obtain ⟨r', hr', rfl⟩ := List.mem_map.mp ih
    exact hstep r' (List.mem_cons_of_mem _ hr') _ hencloses

/-! ### Rules and their definitions -/

/-- The rule, which belongs to the statement of `owner`, was read from the definitions: its text
consists of its name and theirs, its alternatives are what is left of them, and behind it among the
rules stand those lifted out of them. -/
structure Rule.ReadFrom (declared : List String) (rules : List Rule) (owner : String)
    (d : Definitions) (r : Rule) : Prop where
  name : IsPlainName r.name.toList
  tight : Definitions.Tight d
  source_eq : r.source.toList = r.name.toList ++ '=' :: Definitions.chars d
  alts_eq : r.alts = (Definitions.lifted (nextNumber declared) owner r.name 0 d).left
  below : (r :: (Definitions.lifted (nextNumber declared) owner r.name 0 d).rules) <:+: rules

omit [Pattern.Engine] in
/-- The blanks of a statement are those of its definitions if its name has none. -/
theorem IsPlainName.dropBlanks_statement {name : List Char} (h : IsPlainName name)
    (rest : List Char) : dropBlanks (name ++ '=' :: rest) = name ++ '=' :: dropBlanks rest := by
  obtain ⟨hafter, hdrop⟩ := Source.dropBlanks_of_forall fun c hc =>
    ⟨h.isName.ne_of_mem hc (by decide), h.notBlank c hc⟩
  rw [dropBlanks] at hdrop
  rw [dropBlanks, Source.dropBlanksFrom_append, hdrop, hafter,
    Source.dropBlanksFrom_of_not (by decide)]
  rfl

/-- The text of a statement is that of its name and its definitions, and these are tight. -/
theorem IsStatement.text_eq {raw : List Char} {name : String} {d : Definitions}
    (h : IsStatement name d (dropBlanks raw)) :
    dropBlanks raw = name.toList ++ '=' :: Definitions.chars d ∧ Definitions.Tight d := by
  obtain ⟨rest, htext, -, hwritten⟩ := id h
  rw [hwritten.text_eq] at htext
  refine ⟨htext, hwritten.writable, ?_⟩
  -- a second time nothing is dropped, so nothing of the definitions is
  have hdrop := Source.dropBlanks_dropBlanks raw
  rw [htext, h.isPlainName.dropBlanks_statement] at hdrop
  exact (List.cons.inj (List.append_cancel_left hdrop)).2

namespace Rule.ReadFrom

variable {declared : List String} {rules : List Rule} {owner : String} {d : Definitions} {r : Rule}

/-- The text of the rule is a statement, from which nothing has to be dropped. -/
theorem read_eq (h : r.ReadFrom declared rules owner d) :
    Statement.read r.source.toList = .ok ⟨r.name, d, r.source⟩ := by
  have hdrop : dropBlanks r.source.toList = r.source.toList := by
    rw [h.source_eq, h.name.dropBlanks_statement, h.tight.dropBlanks_eq]
  have hstatement : IsStatement r.name d (dropBlanks r.source.toList) :=
    ⟨_, hdrop.trans h.source_eq, h.name.isName, h.tight.writable⟩
  have hread := hstatement.read_eq
  rwa [hdrop, String.ofList_toList] at hread

/-- The block of that statement is the rule, and below it what is lifted out of the rule. -/
theorem blockOf_eq (h : r.ReadFrom declared rules owner d) :
    blockOf (r.name :: declared) r.source.toList = { r with owner := none, kind := none } ::
      (Definitions.lifted (nextNumber declared) owner r.name 0 d).rules.map
        (Rule.ownedBy r.name) := by
  rw [blockOf_of_read h.read_eq, Statement.block, Definitions.lifted_declare d 0 (Nat.le_refl _),
    Statement.rule, h.alts_eq]
  rfl

/-- **The text of a rule makes it again**, and what is lifted out of it, under the same names and in
the same order. -/
theorem exists_run (h : r.ReadFrom declared rules owner d) :
    ∃ b, (Build.statement r.source.toList).run (.empty declared) = (.ok r.name, b) ∧
      b.rules = .ok ({ r with owner := none, kind := none } ::
        (Definitions.lifted (nextNumber declared) owner r.name 0 d).rules.map
          (Rule.ownedBy r.name)) := by
  obtain ⟨_, _, b, hrun, -, -, rfl, -⟩ := Build.run_statement (b := .empty declared) h.read_eq
    h.tight.writable.readable List.not_mem_nil List.nodup_nil
  -- the numbers in the names are known where the name of the statement is declared
  have hdeclared := Build.run_statement_declare h.read_eq (.empty declared)
  rw [hrun, Builder.declare_empty] at hdeclared
  have hname : ∀ s, Statement.read r.source.toList = .ok s → s.name ∈ r.name :: declared := by
    intro s hread
    obtain rfl := Except.ok.inj (h.read_eq.symm.trans hread)
    exact List.mem_cons_self
  obtain ⟨hext, -⟩ := Build.extends_of_run_statement (b := .empty (r.name :: declared))
    List.nodup_nil (Builder.numbered_empty _) hname hdeclared
  have hslots : b.slots = (blockOf (r.name :: declared) r.source.toList).map Rule.slot :=
    hext.slots_eq
  rw [h.blockOf_eq] at hslots
  exact ⟨b, hrun, Builder.rules_eq_ok hslots⟩

/-- What is lifted out of a rule are the rules that are reached from it through brackets. -/
theorem mem_lifted_iff {g : Grammar} {statements : List Statement}
    (h : r.ReadFrom declared g.rules owner d) (hg : g.ConsistsOf statements) {r' : Rule}
    (hr' : r' ∈ g.rules) :
    r' ∈ (Definitions.lifted (nextNumber declared) owner r.name 0 d).rules ↔
      Relation.TransGen g.Encloses r.name r'.name := by
  have hlift := @Definitions.liftTo_lifted _ (nextNumber declared) owner d
    h.tight.writable.readable r.name 0
  -- all rules of the block are found under their names
  have hfind : ∀ x ∈ r :: (Definitions.lifted (nextNumber declared) owner r.name 0 d).rules,
      g.find? x.name = some x := fun x hx => hg.find?_eq_some (h.below.subset hx)
  constructor
  · -- every rule lifted is reached through the brackets around it
    intro hmem
    obtain ⟨bracket, hbracket, hreach⟩ := hlift.inPreorder.exists_reflTransGen
      (List.forall_mem_cons.mp hfind).2 r' hmem
    rw [← h.alts_eq] at hbracket
    exact .head' ⟨r, hfind r List.mem_cons_self, bracket.1, hbracket⟩ hreach
  · -- and what is reached from the first rule is in the block, since brackets stay in it
    intro hreach
    have horder : Rule.InOrder (r :: (Definitions.lifted (nextNumber declared) owner r.name 0
        d).rules) := by
      refine ⟨fun p hp => hlift.name_mem ?_, hlift.inOrder⟩
      rwa [← h.alts_eq]
    obtain ⟨x, hx, hname⟩ := List.mem_map.mp (horder.mem_of_transGen hfind hreach)
    have hsame := hfind x (List.mem_cons_of_mem _ hx)
    rw [hname, hg.find?_eq_some hr'] at hsame
    rwa [Option.some.inj hsame]

end Rule.ReadFrom

namespace Grammar

variable {text : List Char} {g : Grammar}

/-- Every rule of a grammar was read from some definitions, which are written in its source. -/
theorem exists_readFrom {raws : List (List Char)} (hraws : Source.readStatements text = .ok raws)
    (h : compile text = .ok g) {r : Rule} (hr : r ∈ g.rules) :
    ∃ owner d, r.ReadFrom (declaredNames raws) g.rules owner d := by
  obtain ⟨raws', hcut, hstatements, -, hrules, -, -⟩ := names_of_compile h
  obtain rfl := Except.ok.inj (hcut.readStatements_eq.symm.trans hraws)
  have hplain := isPlainName_of_compile h r.name (List.mem_map_of_mem hr)
  rw [hrules] at hr
  obtain ⟨raw, hraw, hr⟩ := List.mem_flatMap.mp hr
  obtain ⟨name, d, hstatement⟩ := hstatements raw hraw
  have hblock : blockOf (declaredNames raws') raw <:+: g.rules :=
    hrules ▸ infix_flatMap (blockOf (declaredNames raws')) hraw
  rw [blockOf_of_read hstatement.read_eq] at hr hblock
  -- the definitions of the statement are tight, and so are those in its brackets
  obtain ⟨htext, htight⟩ := hstatement.text_eq
  rcases List.mem_cons.mp hr with rfl | hr
  · exact ⟨name, d, hplain, htight, String.toList_ofList.trans htext, rfl, hblock⟩
  · obtain ⟨bracket, inner, hinner, hmade, hbelow⟩ := htight.exists_bracket hr
    refine ⟨name, inner, hplain, hinner, ?_, congrArg Rule.alts hmade,
      (hbelow.trans (List.suffix_cons _ _).isInfix).trans hblock⟩
    rw [congrArg Rule.source hmade]
    simp [Rule.ofBracket]

/-- **The text of every rule makes the rule again.**  Adding it to a new builder that knows the same
declared names succeeds.  The builder then has the rule, now one of a statement, and below it, with
the rule as their owner, the rules that follow it in the grammar: those, and only those, that are
reached from it through brackets. -/
theorem source_recreates {raws : List (List Char)} (hraws : Source.readStatements text = .ok raws)
    (h : compile text = .ok g) {r : Rule} (hr : r ∈ g.rules) :
    ∃ b below, (Build.statement r.source.toList).run (.empty (declaredNames raws))
        = (.ok r.name, b) ∧
      b.rules = .ok ({ r with owner := none, kind := none } ::
        below.map fun r' => { r' with owner := some r.name }) ∧
      (r :: below) <:+: g.rules ∧
      ∀ r' ∈ g.rules, r' ∈ below ↔ Relation.TransGen g.Encloses r.name r'.name := by
  obtain ⟨owner, d, hread⟩ := exists_readFrom hraws h hr
  obtain ⟨b, hrun, hrules⟩ := hread.exists_run
  exact ⟨b, _, hrun, hrules, hread.below,
    fun r' hr' => hread.mem_lifted_iff (consistsOf_of_compile h) hr'⟩

end Grammar

end AnyEngine

namespace Grammar

attribute [local instance] Pattern.Engine.verbatim

/-- The text of the optional part of a list makes its rule again, and that of the repetition in it
under the same name. -/
theorem source_recreates_listText : ∃ b below,
    (Build.statement "LSubDef1=I,\x7bI\x7d".toList).run (.empty ["L", "I"])
        = (.ok "LSubDef1", b) ∧
      b.rules = .ok (⟨"LSubDef1", [[.reference "I", .lifted .repetition "LSubDef1SubDef1"]],
        "LSubDef1=I,\x7bI\x7d", none, none⟩ :: below) ∧
      ⟨"LSubDef1SubDef1", [[.reference "I"]], "LSubDef1SubDef1=I", some "LSubDef1",
        some "repetition"⟩ ∈ below := by
  obtain ⟨b, below, hrun, hrules, -, hreach⟩ := source_recreates readStatements_listText
    compile_listText (r := ⟨"LSubDef1", [[.reference "I", .lifted .repetition "LSubDef1SubDef1"]],
      "LSubDef1=I,\x7bI\x7d", some "L", some "optional"⟩) (by decide)
  have hdeclared : declaredNames
      [['L', '=', '"', '(', '"', ',', '[', 'I', ',', '\x7b', 'I', '\x7d', ']', ',', '"', ')', '"'],
        ['I', '=', '"', 'x', '"', '|', 'L']] = ["L", "I"] := by
    cbv
  rw [hdeclared] at hrun
  refine ⟨b, _, hrun, hrules, List.mem_map.mpr ⟨⟨"LSubDef1SubDef1", [[.reference "I"]],
    "LSubDef1SubDef1=I", some "L", some "repetition"⟩, (hreach _ (by decide)).mpr ?_, rfl⟩⟩
  exact .single ⟨_, rfl, "repetition", by decide⟩

end Grammar

end Ebnf
