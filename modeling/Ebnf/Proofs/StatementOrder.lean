import Ebnf.Proofs.Definition.Numbering
import Ebnf.Proofs.Grammar.References
import Ebnf.Proofs.Match.Termination

/-!
# The order of statements

The rules that a statement makes depend on the statement and on the names that all statements
declare, but not on where the statement stands.  So statements in another order make the same rules,
block by block in the order of the statements, and as a grammar is applied only by looking up rules,
all matches are the same.

## Main definitions

* `Statement.block`, `blockOf` — the rules of a statement.

## Main results

* `Build.slots_of_statements` — a builder has the blocks of its statements.
* `Build.exists_statements_iff` — which statements can be added one after the other.
* `Grammar.ofStatements_perm` — **the order of statements does not matter.**
-/

namespace Ebnf

section AnyEngine

variable [Pattern.Engine]

/-! ### Blocks -/

/-- The rules of a statement where the names are declared: its own, and after it those lifted out
of it. -/
def Statement.block (declared : List String) (s : Statement) : List Rule :=
  let d := Definitions.lifted (nextNumber declared) s.name s.name 0 s.definitions
  s.rule d.left :: d.rules

/-- The rules of a statement that may have layout; none if it cannot be read. -/
def blockOf (declared : List String) (raw : List Char) : List Rule :=
  match Statement.read raw with
  | .ok s => s.block declared
  | .error _ => []

theorem blockOf_of_read {declared : List String} {raw : List Char} {s : Statement}
    (h : Statement.read raw = .ok s) : blockOf declared raw = s.block declared := by
  rw [blockOf, h]

/-- The block of a statement that can be read is what the statement makes. -/
theorem Statement.makes_block (declared : List String) {s : Statement}
    (h : Definitions.Readable s.definitions) : s.Makes (s.block declared) :=
  ⟨_, _, Definitions.liftTo_lifted s.definitions h s.name 0, rfl⟩

theorem blockOf_congr {declared declared' : List String}
    (h : ∀ name, name ∈ declared ↔ name ∈ declared') : blockOf declared = blockOf declared' := by
  funext raw
  rw [blockOf, blockOf]
  rcases Statement.read raw with fault | s
  · rfl
  · simp only [Statement.block, nextNumber_congr h]

/-! ### Runs of statements -/

namespace Build

variable {b b' : Builder} {raw : List Char} {raws : List (List Char)} {statements : List Statement}

/-- A statement that can be added adds its block. -/
theorem extends_of_run_statement {name : String} (hb : b.order.Nodup) (hnumbered : b.Numbered)
    (hdeclared : ∀ s, Statement.read raw = .ok s → s.name ∈ b.declared)
    (h : (Build.statement raw).run b = (.ok name, b')) :
    b.Extends (blockOf b.declared raw) b' ∧ b'.Numbered := by
  obtain ⟨s, hread, -, hname⟩ := readable_of_run_statement h
  -- adding a statement is reserving its name, lifting its definitions and defining its rule
  rw [Build.statement, hread] at h
  obtain ⟨_, b₁, hreserve, h⟩ := run_bind_eq_ok h
  rw [run_reserve hname] at hreserve
  cases hreserve
  obtain ⟨alts, b₂, hlift, h⟩ := run_bind_eq_ok h
  obtain ⟨_, b₃, hdefine, h⟩ := run_bind_eq_ok h
  cases h
  obtain ⟨hleft, hbelow⟩ := Definitions.takes_of_run_lift hlift
    (Builder.nodup_order_reserve hb hname) (hnumbered.reserve (hdeclared s hread))
    (Builder.mem_order_reserve.mpr (Or.inr rfl))
  -- no rule was lifted out of the statement's rule before
  have hcounter : Builder.counter { b with slots := b.slots ++ [(s.name, none)] } s.name = 0 :=
    hnumbered.counter_eq_zero s.name hname
  rw [hcounter] at hleft hbelow
  subst hleft
  obtain ⟨hext, hnumbered', -⟩ := Builder.Takes.run_define hname hbelow hdefine
  rw [blockOf_of_read hread]
  exact ⟨hext, hnumbered'⟩

/-- Statements that can be added add their blocks. -/
theorem extends_of_run_statements : ∀ {raws : List (List Char)} {b b' : Builder},
    b.order.Nodup → b.Numbered → declaredNames raws ⊆ b.declared →
    (raws.forM fun raw => discard (Build.statement raw)).run b = (.ok (), b') →
    b.Extends (raws.flatMap (blockOf b.declared)) b' := by
  -- each statement finds the numbers in order, and leaves them so for the next
  intro raws
  induction raws with
  | nil =>
    intro b b' hb _ _ h
    cases h
    exact .refl hb
  | cons raw rest ih =>
    intro b b' hb hnumbered hdeclared h
    -- the first statement adds its block, and the others theirs behind it
    obtain ⟨name, b₁, hstatement, h⟩ := run_statements_cons_eq_ok h
    have hname : ∀ s, Statement.read raw = .ok s → s.name ∈ b.declared := by
      intro s hread
      refine hdeclared (List.mem_filterMap.mpr ⟨raw, List.mem_cons_self, ?_⟩)
      exact Statement.declaredName?_of_read hread
    obtain ⟨hext, hnumbered'⟩ := extends_of_run_statement hb hnumbered hname hstatement
    have hrest : declaredNames rest ⊆ b₁.declared := by
      rw [hext.declared_eq]
      exact fun n hn => hdeclared ((List.sublist_cons_self raw rest).filterMap _ |>.subset hn)
    have hext' := ih hext.nodup hnumbered' hrest h
    rw [hext.declared_eq] at hext'
    rw [List.flatMap_cons]
    exact hext.trans hext'

/-- Of the names declared, a statement adds the one that it declares. -/
theorem mem_order_of_makes {s : Statement} {rules : List Rule} (hext : b.Extends rules b')
    (hmakes : s.Makes rules) (hfresh : ∀ r ∈ rules, r.isLifted = true → r.name ∉ b.declared)
    {name : String} (hname : name ∈ b.declared) :
    name ∈ b'.order ↔ name ∈ b.order ∨ name = s.name := by
  obtain ⟨alts, below, hlift, rfl⟩ := hmakes
  rw [hext.order_eq, List.mem_append, List.map_cons, List.mem_cons]
  refine or_congr_right ⟨fun h => h.resolve_right fun hmem => ?_, Or.inl⟩
  -- the other names are those of lifted rules, which are not declared
  obtain ⟨r, hr, rfl⟩ := List.mem_map.mp hmem
  have hlifted : r.isLifted = true := by
    rw [Rule.isLifted, (hlift.liftedFrom r hr).owner_eq]
    rfl
  exact hfresh r (List.mem_cons_of_mem _ hr) hlifted hname

/-- Readable statements that declare different names can be added one after the other. -/
theorem exists_run_statements : ∀ {raws : List (List Char)} {statements : List Statement}
    {b : Builder}, List.Forall₂ (fun raw s => Statement.read raw = .ok s) raws statements →
    (∀ s ∈ statements, Definitions.Readable s.definitions) → (statements.map (·.name)).Nodup →
    b.order.Nodup → (∀ s ∈ statements, s.name ∉ b.order ∧ s.name ∈ b.declared) →
    ∃ b', (raws.forM fun raw => discard (Build.statement raw)).run b = (.ok (), b') := by
  intro raws statements b hreads
  induction hreads generalizing b with
  | nil => exact fun _ _ _ _ => ⟨b, rfl⟩
  | @cons raw s rest statements hread _ ih =>
    intro hreadable hnames hb hfree
    obtain ⟨hname, hnames⟩ := List.nodup_cons.mp hnames
    -- the names of the statements that follow are still free
    obtain ⟨name, rules, b₁, hrun, hext, hfresh, -, hmakes⟩ := run_statement hread
      (hreadable s List.mem_cons_self) (hfree s List.mem_cons_self).1 hb
    have hfree' : ∀ s' ∈ statements, s'.name ∉ b₁.order ∧ s'.name ∈ b₁.declared := by
      intro s' hs'
      obtain ⟨hno, hdeclared⟩ := hfree s' (List.mem_cons_of_mem _ hs')
      rw [mem_order_of_makes hext hmakes hfresh hdeclared, hext.declared_eq]
      refine ⟨fun hmem => hmem.elim hno fun heq => hname ?_, hdeclared⟩
      exact List.mem_map.mpr ⟨s', hs', heq⟩
    obtain ⟨b', hrest⟩ := ih (fun s' hs' => hreadable s' (List.mem_cons_of_mem _ hs')) hnames
      hext.nodup hfree'
    exact ⟨b', (run_statements_cons hrun).trans hrest⟩

/-- A builder has the blocks of its statements, one after the other, with all slots filled. -/
theorem slots_of_statements (h : Build.statements raws = .ok b) :
    b.slots = (raws.flatMap (blockOf (declaredNames raws))).map Rule.slot :=
  (extends_of_run_statements (b := Builder.empty (declaredNames raws)) List.nodup_nil
    (Builder.numbered_empty _) (List.Subset.refl _) (statements_eq_ok_iff_run.mp h)).slots_eq

/-- The names of statements stand among the names of their blocks. -/
theorem names_sublist_of_makes {statements : List Statement} {blocks : List (List Rule)}
    (h : List.Forall₂ Statement.Makes statements blocks) :
    (statements.map (·.name)).Sublist (blocks.flatten.map (·.name)) := by
  induction h with
  | nil => exact .slnil
  | @cons s block statements blocks hmakes _ ih =>
    obtain ⟨alts, below, -, rfl⟩ := hmakes
    rw [List.flatten_cons, List.map_append, List.map_cons, List.map_cons, List.cons_append]
    exact .cons_cons _ (ih.trans (List.sublist_append_right _ _))

/-- Statements can be added one after the other if and only if all can be read and they declare
different names. -/
theorem exists_statements_iff : (∃ b, Build.statements raws = .ok b) ↔
    ∃ statements, List.Forall₂ (fun raw s => Statement.read raw = .ok s) raws statements ∧
      (∀ s ∈ statements, Definitions.Readable s.definitions) ∧
      (statements.map (·.name)).Nodup := by
  constructor
  · rintro ⟨b, h⟩
    obtain ⟨statements, blocks, hreads, hmakes, -, horder, hnodup, -⟩ := Build.statements_eq_ok h
    refine ⟨statements, hreads, fun s hs => ?_, ?_⟩
    · obtain ⟨_, -, alts, below, hlift, -⟩ := exists_of_forall₂_left hmakes hs
      exact hlift.readable
    · rw [horder] at hnodup
      exact (names_sublist_of_makes hmakes).nodup hnodup
  · rintro ⟨statements, hreads, hreadable, hnames⟩
    -- nothing is reserved in an empty builder, and every statement's name is declared
    have hfree : ∀ s ∈ statements, s.name ∉ (Builder.empty (declaredNames raws)).order ∧
        s.name ∈ (Builder.empty (declaredNames raws)).declared := by
      refine fun s hs => ⟨List.not_mem_nil, ?_⟩
      change s.name ∈ declaredNames raws
      rw [declaredNames_of_read hreads]
      exact List.mem_map_of_mem hs
    obtain ⟨b, hrun⟩ := exists_run_statements (b := Builder.empty (declaredNames raws)) hreads
      hreadable hnames List.nodup_nil hfree
    exact ⟨b, statements_eq_ok_iff_run.mpr hrun⟩

/-- Statements can be added in any order if they can be added in one. -/
theorem exists_statements_perm {raws' : List (List Char)} (hperm : raws.Perm raws')
    (h : ∃ b, Build.statements raws = .ok b) : ∃ b', Build.statements raws' = .ok b' := by
  obtain ⟨statements, hreads, hreadable, hnames⟩ := exists_statements_iff.mp h
  obtain ⟨statements', hreads', hperm'⟩ := List.perm_comp_forall₂ hperm.symm hreads
  exact exists_statements_iff.mpr ⟨statements', hreads',
    fun s hs => hreadable s (hperm'.subset hs), (hperm'.map _).nodup_iff.mpr hnames⟩

end Build

/-! ### Grammars -/

/-- A builder with the same rules in another order becomes a grammar too, since no check depends on
the order. -/
theorem Builder.exists_freeze_perm {b b' : Builder} {rules rules' : List Rule}
    (hslots : b.slots = rules.map Rule.slot) (hslots' : b'.slots = rules'.map Rule.slot)
    (hperm : rules.Perm rules') {g : Grammar} (h : b.freeze = .ok g) :
    ∃ g', b'.freeze = .ok g' := by
  obtain ⟨hrules, hresolved, htypes⟩ := freeze_eq_ok h
  obtain rfl : rules = g.rules := Except.ok.inj ((rules_eq_ok hslots).symm.trans hrules)
  -- there are as many rules in both orders, so neither builder is empty
  have hne : b'.slots ≠ [] := by
    intro hnil
    rw [hslots', List.map_eq_nil_iff] at hnil
    rw [hnil] at hperm
    rw [freeze_of_isEmpty (by rw [hslots, hperm.eq_nil, List.map_nil])] at h
    cases h
  -- whether references have rules and names make members does not depend on the order
  have hresolved' : unresolved rules' = [] := by
    rw [unresolved_eq_nil_iff] at hresolved ⊢
    exact fun r hr name hname =>
      (hperm.map _).subset (hresolved r (hperm.mem_iff.mpr hr) name hname)
  have htopLevel := (hperm.filter fun r => !r.isLifted).map Rule.name
  obtain ⟨types', htypes'⟩ := nodeTypes_perm htopLevel htypes
  refine ⟨⟨rules', types'⟩, ?_⟩
  rw [freeze_of_rules hne (rules_eq_ok hslots'), checkReferences_eq_ok_iff.mpr hresolved']
  dsimp only
  rw [htypes', Except.map]

/-- Where all names differ, the order of rules does not matter for looking them up. -/
theorem Rule.find?_eq_of_perm {rules rules' : List Rule} (hperm : rules.Perm rules')
    (hnodup : (rules.map (·.name)).Nodup) (name : String) :
    rules.find? (·.name = name) = rules'.find? (·.name = name) := by
  rcases hfind : rules.find? (·.name = name) with _ | r
  · rw [hfind, eq_comm]
    rw [List.find?_eq_none] at hfind ⊢
    exact fun r hr => hfind r (hperm.mem_iff.mpr hr)
  · have hr : r ∈ rules := List.mem_of_find?_eq_some hfind
    have hname : r.name = name := by simpa using List.find?_some hfind
    have hfind' := Rule.find?_eq_some_of_nodup ((hperm.map _).nodup_iff.mp hnodup)
      (hperm.mem_iff.mp hr)
    rw [hname] at hfind'
    rw [hfind, hfind']

namespace Grammar

variable {g g' : Grammar}

/-- Rules are applied alike where they are looked up alike. -/
theorem applyRule_congr (h : ∀ name, g.find? name = g'.find? name) :
    ∀ nesting, Match.applyRule g nesting = Match.applyRule g' nesting := by
  intro nesting
  induction nesting with
  | zero =>
    funext depth rule text
    cases depth <;> rfl
  | succ nesting ih =>
    funext depth rule text
    cases depth with
    | zero => rfl
    | succ depth => rw [Match.applyRule, Match.applyRule, h, ih]

theorem matchWithin_congr (h : ∀ name, g.find? name = g'.find? name) (nesting : Nat)
    (rule input : String) (maxDepth : Int) :
    g.matchWithin nesting rule input maxDepth = g'.matchWithin nesting rule input maxDepth := by
  have hcontains : g.contains rule = g'.contains rule := by
    rw [contains, contains, ← List.isSome_find?, ← List.isSome_find?]
    exact congrArg Option.isSome (h rule)
  rw [matchWithin, matchWithin, hcontains, applyRule_congr h]

/-- The rules of a grammar are the blocks of its statements. -/
theorem rules_of_ofStatements {raws : List (List Char)} (h : Grammar.ofStatements raws = .ok g) :
    g.rules = raws.flatMap (blockOf (declaredNames raws)) := by
  obtain ⟨b, hb, hfreeze⟩ := ofStatements_eq_ok_iff.mp h
  obtain ⟨hrules, -, -⟩ := Builder.freeze_eq_ok hfreeze
  rw [Builder.rules_eq_ok (Build.slots_of_statements hb)] at hrules
  exact (Except.ok.inj hrules).symm

theorem blockOf_perm {raws raws' : List (List Char)} (hperm : raws.Perm raws') :
    blockOf (declaredNames raws) = blockOf (declaredNames raws') :=
  blockOf_congr fun _ => (hperm.filterMap _).mem_iff

theorem exists_ofStatements_perm {raws raws' : List (List Char)} (hperm : raws.Perm raws')
    (h : ∃ g, Grammar.ofStatements raws = .ok g) : ∃ g', Grammar.ofStatements raws' = .ok g' := by
  obtain ⟨g, hg⟩ := h
  obtain ⟨b, hb, hfreeze⟩ := ofStatements_eq_ok_iff.mp hg
  obtain ⟨b', hb'⟩ := Build.exists_statements_perm hperm ⟨b, hb⟩
  have hslots' := Build.slots_of_statements hb'
  rw [← blockOf_perm hperm] at hslots'
  obtain ⟨g', hfreeze'⟩ := Builder.exists_freeze_perm (Build.slots_of_statements hb) hslots'
    (hperm.flatMap_right _) hfreeze
  exact ⟨g', ofStatements_eq_ok_iff.mpr ⟨b', hb', hfreeze'⟩⟩

/-- The rules are those of one statement: that under the name it declares, and after it rules lifted
out of that one. -/
def IsBlock (raw : List Char) (rules : List Rule) : Prop :=
  ∃ first below, rules = first :: below ∧ declaredName? raw = some first.name ∧
    first.isLifted = false ∧ ∀ r ∈ below, r.owner = some first.name

/-- **The order of statements does not matter.**  Statements make a grammar in one order if and only
if they do in another.  Then both grammars have the same rules under the same names, in blocks of
the same rules that stand in the order of the statements, and all matches give the same result. -/
theorem ofStatements_perm {raws raws' : List (List Char)} (hperm : raws.Perm raws') :
    ((∃ g, Grammar.ofStatements raws = .ok g) ↔ ∃ g', Grammar.ofStatements raws' = .ok g') ∧
      ∀ g g', Grammar.ofStatements raws = .ok g → Grammar.ofStatements raws' = .ok g' →
        (∀ name, g.find? name = g'.find? name) ∧
        (∃ block : List Char → List Rule, (∀ raw ∈ raws, IsBlock raw (block raw)) ∧
          g.rules = raws.flatMap block ∧ g'.rules = raws'.flatMap block) ∧
        ∀ nesting rule input maxDepth,
          g.matchWithin nesting rule input maxDepth
            = g'.matchWithin nesting rule input maxDepth := by
  refine ⟨⟨exists_ofStatements_perm hperm, exists_ofStatements_perm hperm.symm⟩, ?_⟩
  intro g g' h h'
  obtain ⟨statements, hreads, hg⟩ := consistsOf_of_ofStatements h
  have hrules := rules_of_ofStatements h
  have hrules' := rules_of_ofStatements h'
  rw [← blockOf_perm hperm] at hrules'
  have hrulesPerm : g.rules.Perm g'.rules := by
    rw [hrules, hrules']
    exact hperm.flatMap_right _
  have hfind : ∀ name, g.find? name = g'.find? name := Rule.find?_eq_of_perm hrulesPerm hg.nodup
  refine ⟨hfind, ⟨_, fun raw hraw => ?_, hrules, hrules'⟩, matchWithin_congr hfind⟩
  obtain ⟨s, -, hread⟩ := exists_of_forall₂_left hreads hraw
  -- the block of a statement is made of its text and the names that are declared
  rw [blockOf_of_read hread]
  exact ⟨_, _, rfl, Statement.declaredName?_of_read hread, rfl, Definitions.owner_lifted _ _ _⟩

end Grammar

end AnyEngine

namespace Grammar

attribute [local instance] Pattern.Engine.verbatim

/-- Where a statement takes the name of a bracket's rule, before the bracket or after it. -/
theorem ofStatements_perm_taken :
    ∃ g, Grammar.ofStatements [bracketStatement, takingStatement] = .ok g ∧
      (∀ name, takenGrammar.find? name = g.find? name) ∧
      takenGrammar.matchWithin 9 "X" "ab" 1 = g.matchWithin 9 "X" "ab" 1 := by
  obtain ⟨hiff, hsame⟩ := ofStatements_perm (List.Perm.swap bracketStatement takingStatement [])
  obtain ⟨g, hg⟩ := hiff.mp ⟨_, ofStatements_taken⟩
  obtain ⟨hfind, -, hmatch⟩ := hsame _ _ ofStatements_taken hg
  exact ⟨g, hg, hfind, hmatch 9 "X" "ab" 1⟩

end Grammar

end Ebnf
