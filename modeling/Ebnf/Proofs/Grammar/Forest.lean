import Ebnf.Proofs.Naming

/-!
# Rules form a forest

The rule of a statement is the root of a tree: its brackets have the rules below it, the brackets in
those have the rules below them, and so on.  A grammar lists its trees in the order of the
statements, and the rules of each tree in pre-order.  So the rule of a bracket belongs to the last
rule of a statement before it, and it comes after the one rule that has the bracket.

## Main definitions

* `Rule.Filled` — no alternative is missing or empty.
* `InPreorder` — the rules of brackets, of the brackets in those rules and so on, in pre-order.
* `Definitions.preorder` — the brackets that are written in definitions, in pre-order.
* `IsTreeOf` — the rules that are the tree of a statement.

## Main results

* `Definitions.LiftTo.inPreorder`, `Definitions.LiftTo.forall₂_preorder` — lifting goes through
  brackets in pre-order.
* `exists_nearest_root` — the root of a tree is the last one before each rule of the tree.
* `Grammar.rules_form_forest` — **which rules a grammar has, and in which order.**
-/

namespace Ebnf

open Source (dropBlanks)

section AnyEngine

variable [Pattern.Engine]

/-- Every part of the rule is there: it has an alternative, and each of them has an atom. -/
def Rule.Filled (r : Rule) : Prop := r.alts ≠ [] ∧ ∀ alt ∈ r.alts, alt ≠ []

/-- The rules are those of the brackets from left to right, and behind the rule of each bracket
stand those of the brackets in it. -/
inductive InPreorder : List (String × String) → List Rule → Prop
  /-- There are no brackets. -/
  | nil : InPreorder [] []
  /-- The rule of the first bracket, the rules inside it, and those of the other brackets. -/
  | cons {r : Rule} {kind : String} {others : List (String × String)} {inside after : List Rule}
    (hkind : r.kind = some kind) (hinside : InPreorder r.brackets inside)
    (hothers : InPreorder others after) :
    InPreorder ((kind, r.name) :: others) (r :: (inside ++ after))

theorem InPreorder.append {first others : List (String × String)} {rules rest : List Rule}
    (h : InPreorder first rules) (hrest : InPreorder others rest) :
    InPreorder (first ++ others) (rules ++ rest) := by
  induction h with
  | nil => exact hrest
  | cons hkind hinside _ _ ih =>
    rw [List.cons_append, List.cons_append, List.append_assoc]
    exact .cons hkind hinside ih

mutual

/-- The brackets in a primary, itself first if it is one. -/
def Primary.preorder : Primary → List (Bracket × Definitions)
  | .bracketed bracket inner => (bracket, inner) :: Definitions.preorder inner
  | .terminal _ | .pattern _ | .name _ | .unreadable _ => []

/-- The brackets in the primaries of an alternative. -/
def Primary.allPreorder : List Primary → List (Bracket × Definitions)
  | [] => []
  | p :: rest => p.preorder ++ Primary.allPreorder rest

/-- The brackets that are written in definitions, each before those inside it. -/
def Definitions.preorder : List (List Primary) → List (Bracket × Definitions)
  | [] => []
  | alt :: rest => Primary.allPreorder alt ++ Definitions.preorder rest

end

/-! ### Lifting -/

section

variable {owner : String}

mutual

theorem Primary.LiftsTo.filled : ∀ {parent p atom rules text},
    Primary.LiftsTo owner parent p atom rules → p.WrittenAs text → ∀ r ∈ rules, r.Filled
  | _, _, _, _, _, .terminal _ _, _ => by simp
  | _, _, _, _, _, .pattern _ _, _ => by simp
  | _, _, _, _, _, .name _ _, _ => by simp
  | _, _, _, _, _, .bracketed h, .bracketed _ hinner => by
    obtain ⟨halts, hbelow⟩ := h.filled hinner
    exact List.forall_mem_cons.mpr ⟨halts, hbelow⟩

theorem Primary.AllLiftTo.filled : ∀ {parent ps atoms rules text},
    Primary.AllLiftTo owner parent ps atoms rules → Primary.AllWrittenAs ps text →
    atoms ≠ [] ∧ ∀ r ∈ rules, r.Filled
  | _, _, _, _, _, .cons hp hrest, .single hwritten => by
    cases hrest
    rw [List.append_nil]
    exact ⟨List.cons_ne_nil _ _, hp.filled hwritten⟩
  | _, _, _, _, _, .cons hp hrest, .cons hwritten hothers => by
    have hhead := hp.filled hwritten
    have htail := (hrest.filled hothers).2
    exact ⟨List.cons_ne_nil _ _, List.forall_mem_append.mpr ⟨hhead, htail⟩⟩

/-- Where nothing that is written is empty, no rule is. -/
theorem Definitions.LiftTo.filled : ∀ {parent d alts rules text},
    Definitions.LiftTo owner parent d alts rules → Definitions.WrittenAs d text →
    (alts ≠ [] ∧ ∀ alt ∈ alts, alt ≠ []) ∧ ∀ r ∈ rules, r.Filled
  | _, _, _, _, _, .cons halt hrest, .single hwritten => by
    obtain ⟨hatoms, hrules⟩ := halt.filled hwritten
    cases hrest
    rw [List.append_nil]
    exact ⟨⟨List.cons_ne_nil _ _, by simpa using hatoms⟩, hrules⟩
  | _, _, _, _, _, .cons halt hrest, .cons hwritten hothers => by
    obtain ⟨hatoms, hrules⟩ := halt.filled hwritten
    obtain ⟨⟨-, halts⟩, hbelow⟩ := hrest.filled hothers
    exact ⟨⟨List.cons_ne_nil _ _, List.forall_mem_cons.mpr ⟨hatoms, halts⟩⟩,
      List.forall_mem_append.mpr ⟨hrules, hbelow⟩⟩

end

mutual

/-- The rules lifted out of a primary are those of the brackets left behind, in pre-order. -/
theorem Primary.LiftsTo.inPreorder : ∀ {parent p atom rules},
    Primary.LiftsTo owner parent p atom rules → InPreorder atom.bracket?.toList rules
  | _, _, _, _, .terminal _ _ => .nil
  | _, _, _, _, .pattern _ _ => .nil
  | _, _, _, _, .name _ _ => .nil
  | parent, _, _, _, @Primary.LiftsTo.bracketed _ _ _ bracket k inner alts below h => by
    let r := Rule.ofBracket owner (Builder.liftedName parent k) bracket inner alts
    have hrules := @InPreorder.cons _ r bracket.word [] below [] rfl h.inPreorder .nil
    rwa [List.append_nil] at hrules

theorem Primary.AllLiftTo.inPreorder : ∀ {parent ps atoms rules},
    Primary.AllLiftTo owner parent ps atoms rules →
    InPreorder (atoms.filterMap Atom.bracket?) rules
  | _, _, _, _, .nil _ => .nil
  | _, _, _, _, @Primary.AllLiftTo.cons _ _ _ _ atom _ _ atoms _ hp hrest => by
    have hsplit : (atom :: atoms).filterMap Atom.bracket?
        = atom.bracket?.toList ++ atoms.filterMap Atom.bracket? := by
      cases hb : atom.bracket? <;> simp [hb]
    rw [hsplit]
    exact hp.inPreorder.append hrest.inPreorder

/-- The rules lifted out of definitions are those of the brackets left behind, in pre-order: each
bracket's rule, and then those inside it. -/
theorem Definitions.LiftTo.inPreorder : ∀ {parent d alts rules},
    Definitions.LiftTo owner parent d alts rules → InPreorder (bracketsIn alts) rules
  | _, _, _, _, .nil _ => .nil
  | _, _, _, _, .cons halt hrest => by
    rw [bracketsIn_cons]
    exact halt.inPreorder.append hrest.inPreorder

end

/-- The rule is made of the bracket as it is written. -/
def Rule.IsMadeOf (owner : String) (written : Bracket × Definitions) (r : Rule) : Prop :=
  r = Rule.ofBracket owner r.name written.1 written.2 r.alts

mutual

theorem Primary.LiftsTo.forall₂_preorder : ∀ {parent p atom rules},
    Primary.LiftsTo owner parent p atom rules →
    List.Forall₂ (Rule.IsMadeOf owner) p.preorder rules
  | _, _, _, _, .terminal _ _ => .nil
  | _, _, _, _, .pattern _ _ => .nil
  | _, _, _, _, .name _ _ => .nil
  | _, _, _, _, .bracketed h => .cons rfl h.forall₂_preorder

theorem Primary.AllLiftTo.forall₂_preorder : ∀ {parent ps atoms rules},
    Primary.AllLiftTo owner parent ps atoms rules →
    List.Forall₂ (Rule.IsMadeOf owner) (Primary.allPreorder ps) rules
  | _, _, _, _, .nil _ => .nil
  | _, _, _, _, .cons hp hrest => List.rel_append hp.forall₂_preorder hrest.forall₂_preorder

/-- The rules lifted out of definitions are made of the brackets written in them, in pre-order. -/
theorem Definitions.LiftTo.forall₂_preorder : ∀ {parent d alts rules},
    Definitions.LiftTo owner parent d alts rules →
    List.Forall₂ (Rule.IsMadeOf owner) (Definitions.preorder d) rules
  | _, _, _, _, .nil _ => .nil
  | _, _, _, _, .cons halt hrest => List.rel_append halt.forall₂_preorder hrest.forall₂_preorder

end

end

/-! ### Trees -/

/-- The rules are the tree of a statement: the rule of the statement, and below it, in pre-order,
those of its brackets as they are left in the rules and as they are written. -/
def IsTreeOf (raw : List Char) (rules : List Rule) : Prop :=
  ∃ s root below, Statement.read raw = .ok s ∧ rules = root :: below ∧
    root.name = s.name ∧ root.isLifted = false ∧ InPreorder root.brackets below ∧
    List.Forall₂ (Rule.IsMadeOf s.name) (Definitions.preorder s.definitions) below

namespace Statement.Makes

variable {s : Statement} {rules : List Rule}

theorem isTreeOf (h : s.Makes rules) {raw : List Char} (hread : Statement.read raw = .ok s) :
    IsTreeOf raw rules := by
  obtain ⟨alts, below, hlift, rfl⟩ := h
  exact ⟨s, s.rule alts, below, hread, rfl, rfl, rfl, hlift.inPreorder, hlift.forall₂_preorder⟩

theorem filled (h : s.Makes rules) {text : List Char}
    (hwritten : Definitions.WrittenAs s.definitions text) : ∀ r ∈ rules, r.Filled := by
  obtain ⟨alts, below, hlift, rfl⟩ := h
  exact List.forall_mem_cons.mpr (hlift.filled hwritten)

/-- The rules of a statement are its own, which is not lifted, and lifted ones of which it is the
owner. -/
theorem exists_root (h : s.Makes rules) : ∃ root below, rules = root :: below ∧
    root.name = s.name ∧ root.isLifted = false ∧ ∀ r ∈ below, r.owner = some s.name := by
  obtain ⟨alts, below, hlift, rfl⟩ := h
  exact ⟨s.rule alts, below, rfl, rfl, rfl, fun r hr => (hlift.liftedFrom r hr).owner_eq⟩

/-- A bracket in one of the rules has its rule among them. -/
theorem exists_rule_of_bracket (h : s.Makes rules) {r : Rule} (hr : r ∈ rules)
    {p : String × String} (hp : p ∈ r.brackets) :
    ∃ r' ∈ rules, r'.name = p.2 ∧ r'.kind = some p.1 ∧ r'.owner = some s.name := by
  have hmem : p ∈ rules.filterMap Rule.bracket? :=
    h.brackets_perm.subset (List.mem_flatMap.mpr ⟨r, hr, hp⟩)
  obtain ⟨r', hr', hbracket⟩ := List.mem_filterMap.mp hmem
  obtain ⟨kind, hkind, rfl⟩ := Option.map_eq_some_iff.mp hbracket
  refine ⟨r', hr', rfl, hkind, ?_⟩
  -- the rule of the statement itself is of no kind
  obtain ⟨alts, below, hlift, rfl⟩ := h
  rcases List.mem_cons.mp hr' with rfl | hbelow
  · cases hkind
  · exact (hlift.liftedFrom r' hbelow).owner_eq

end Statement.Makes

/-- In a list of trees, the root of a tree is the last root before each rule below it. -/
theorem exists_nearest_root {blocks : List (List Rule)}
    (hblocks : ∀ block ∈ blocks, ∃ (root : Rule) (below : List Rule), block = root :: below ∧
      root.isLifted = false ∧ ∀ r ∈ below, r.owner = some root.name) :
    ∀ {before : List Rule} {r : Rule} {after : List Rule},
      blocks.flatten = before ++ r :: after → r.isLifted = true →
      ∃ root, (before.filter (!·.isLifted)).getLast? = some root ∧ r.owner = some root.name := by
  -- induction on the list of trees: the rule is in the first one or in a later one
  induction blocks with
  | nil => intro before r after heq; simp at heq
  | cons block rest ih =>
    intro before r after heq hlifted
    obtain ⟨root, below, rfl, hroot, hbelow⟩ := hblocks block List.mem_cons_self
    have hrest : ∀ {before r after}, rest.flatten = before ++ r :: after → r.isLifted = true →
        ∃ root, (before.filter (!·.isLifted)).getLast? = some root ∧ r.owner = some root.name :=
      ih fun block hmem => hblocks block (List.mem_cons_of_mem _ hmem)
    rw [List.flatten_cons, List.append_eq_append_iff] at heq
    rcases heq with ⟨part, rfl, hpart⟩ | ⟨part, hpart, hafter⟩
    · -- the rule is in a later tree
      obtain ⟨root', hlast, howner⟩ := hrest hpart hlifted
      refine ⟨root', ?_, howner⟩
      rw [List.filter_append, List.getLast?_append, hlast, Option.some_or]
    · -- the rule is in the first tree
      cases part with
      | nil =>
        -- it stands at the very start of the later trees, where no root is before it
        obtain ⟨root', hlast, -⟩ := @hrest [] _ _ hafter.symm hlifted
        cases hlast
      | cons first part =>
        obtain ⟨rfl, -⟩ := List.cons.inj hafter
        -- the root itself is not lifted
        cases before with
        | nil =>
          obtain ⟨rfl, -⟩ := List.cons.inj hpart
          rw [hroot] at hlifted
          cases hlifted
        -- between the root and the rule there are only lifted rules
        | cons first' before =>
          obtain ⟨rfl, rfl⟩ := List.cons.inj hpart
          have hnone : before.filter (!·.isLifted) = [] := by
            rw [List.filter_eq_nil_iff]
            intro r' hr'
            simp [Rule.isLifted, hbelow r' (List.mem_append_left _ hr')]
          have howner := hbelow r (List.mem_append_right _ List.mem_cons_self)
          refine ⟨root, ?_, howner⟩
          rw [List.filter_cons_of_pos (by simp [hroot]), hnone]
          rfl

/-! ### Grammars -/

/-- In order, the rule of a bracket stands behind the rule with the bracket. -/
theorem Rule.InOrder.name_mem_after : ∀ {before : List Rule} {r : Rule} {after : List Rule},
    Rule.InOrder (before ++ r :: after) → ∀ p ∈ r.brackets, p.2 ∈ after.map (·.name) := by
  intro before
  induction before with
  | nil => intro r after h; exact h.1
  | cons first before ih => intro r after h; exact ih h.2

namespace Grammar

variable {g : Grammar} {statements : List Statement}

/-- The bracket of an atom has its rule behind the rule with the atom, in the same tree. -/
theorem ConsistsOf.exists_rule_after (h : g.ConsistsOf statements) {before after : List Rule}
    {r : Rule} (heq : g.rules = before ++ r :: after) {p : String × String}
    (hp : p ∈ r.brackets) :
    ∃ r' ∈ after, r'.name = p.2 ∧ r'.kind = some p.1 ∧ r'.isLifted = true ∧
      (r.isLifted = false ∧ r'.owner = some r.name ∨ r'.owner = r.owner) := by
  -- the rule is one of a tree, and in this tree the bracket has its rule
  have hr : r ∈ g.rules := by
    rw [heq]
    exact List.mem_append_right _ List.mem_cons_self
  obtain ⟨blocks, hblocks, hrules⟩ := h.blocks
  rw [hrules] at hr
  obtain ⟨block, hblock, hr⟩ := List.mem_flatten.mp hr
  obtain ⟨s, -, hmakes⟩ := exists_of_forall₂_right hblocks hblock
  obtain ⟨r', hr', hname, hkind, howner⟩ := hmakes.exists_rule_of_bracket hr hp
  have hr'mem : r' ∈ g.rules := hrules ▸ List.mem_flatten_of_mem hblock hr'
  -- by its name it is the rule that stands behind
  have hbehind : p.2 ∈ after.map (·.name) :=
    @Rule.InOrder.name_mem_after _ before r after (heq ▸ h.inOrder) p hp
  obtain ⟨r'', hr'', hname''⟩ := List.mem_map.mp hbehind
  have hr''mem : r'' ∈ g.rules := by
    rw [heq]
    exact List.mem_append_right _ (List.mem_cons_of_mem _ hr'')
  have hsame : some r'' = some r' := by
    rw [← h.find?_eq_some hr''mem, ← h.find?_eq_some hr'mem, hname, hname'']
  obtain rfl := Option.some.inj hsame
  refine ⟨r'', hr'', hname, hkind, by rw [Rule.isLifted, howner]; rfl, ?_⟩
  obtain ⟨root, below, rfl, hroot, hlifted, hbelow⟩ := hmakes.exists_root
  -- the owner is the rule itself if that is the root, and else the owner of the rule
  rcases List.mem_cons.mp hr with rfl | hmem
  · exact Or.inl ⟨hlifted, by rw [howner, hroot]⟩
  · exact Or.inr (by rw [howner, hbelow r hmem])

/-- The trees of a grammar, and that nothing in them is empty. -/
theorem exists_trees {text : List Char} (h : compile text = .ok g) :
    ∃ raws blocks, Source.readStatements text = .ok raws ∧ g.rules = blocks.flatten ∧
      raws.map declaredName? = g.topLevel.map some ∧ List.Forall₂ IsTreeOf raws blocks ∧
      (∀ block ∈ blocks, ∃ s : Statement, s.Makes block) ∧ ∀ r ∈ g.rules, r.Filled := by
  obtain ⟨raws, hcut, hstatements, -, hrules, -, -⟩ := names_of_compile h
  rw [compile_of_cutInto hcut] at h
  obtain ⟨statements, hreads, hg⟩ := consistsOf_of_ofStatements h
  obtain ⟨blocks, hblocks, hflatten⟩ := hg.blocks
  -- the rules that are not lifted are those of the statements
  have htop : g.topLevel = declaredNames raws := by
    rw [topLevel, hrules]
    exact topLevel_blocks hstatements
  refine ⟨raws, blocks, hcut.readStatements_eq, hflatten, ?_, ?_, ?_, ?_⟩
  · -- names are declared in the order of the statements
    rw [htop]
    clear htop hrules hg hblocks hcut h
    induction hreads with
    | nil => rfl
    | @cons raw s _ _ hread _ ih =>
      have hname := Statement.declaredName?_of_read hread
      have hrest := ih fun raw hraw => hstatements raw (List.mem_cons_of_mem _ hraw)
      rw [List.map_cons, declaredNames_cons, hname, hrest]
      rfl
  · -- each tree is made from the statement it belongs to
    clear hflatten hg htop hrules hcut h hstatements
    induction hreads generalizing blocks with
    | nil => cases hblocks; exact .nil
    | cons hread _ ih =>
      cases hblocks with
      | cons hmakes hrest => exact .cons (hmakes.isTreeOf hread) (ih _ hrest)
  · -- a tree is made by some statement
    intro block hblock
    obtain ⟨s, -, hmakes⟩ := exists_of_forall₂_right hblocks hblock
    exact ⟨s, hmakes⟩
  · -- no rule is empty since the definitions of its statement are written somewhere
    intro r hr
    rw [hflatten] at hr
    obtain ⟨block, hblock, hr⟩ := List.mem_flatten.mp hr
    obtain ⟨s, hs, hmakes⟩ := exists_of_forall₂_right hblocks hblock
    obtain ⟨raw, hraw, hread⟩ := exists_of_forall₂_right hreads hs
    obtain ⟨name, d, hstatement⟩ := hstatements raw hraw
    rw [hstatement.read_eq] at hread
    cases hread
    obtain ⟨rest, -, -, hwritten⟩ := hstatement
    exact hmakes.filled hwritten r hr

/-- **Which rules a grammar has, and in which order.**  No rule and no alternative is empty.  The
grammar lists one tree for each statement in the order of the text, each in pre-order, and begins
with the rule of the first statement.  A lifted rule belongs to the last rule of a statement before
it, there is one bracket in the grammar whose rule it is, and that bracket is of its kind and stands
in an earlier rule of the same tree. -/
theorem rules_form_forest {text : List Char} (h : compile text = .ok g) :
    (∀ r ∈ g.rules, r.Filled) ∧
    (∃ raws blocks, Source.readStatements text = .ok raws ∧
      raws.map declaredName? = g.topLevel.map some ∧ g.start?.isSome = true ∧
      g.start? = raws.head?.bind declaredName? ∧
      g.rules = blocks.flatten ∧ List.Forall₂ IsTreeOf raws blocks) ∧
    (∀ before r after, g.rules = before ++ r :: after →
      (r.isLifted = true → ∃ root, (before.filter (!·.isLifted)).getLast? = some root ∧
        r.owner = some root.name) ∧
      ∀ bracket name, Atom.lifted bracket name ∈ r.alts.flatten →
        ∃ r' ∈ after, r'.name = name ∧ r'.kind = some bracket.word ∧ r'.isLifted = true ∧
          (r.isLifted = false ∧ r'.owner = some r.name ∨ r'.owner = r.owner)) ∧
    ∀ r ∈ g.rules, r.isLifted = true → ∃ kind, r.kind = some kind ∧
      (g.rules.flatMap Rule.brackets).filter (·.2 = r.name) = [(kind, r.name)] := by
  have hg := consistsOf_of_compile h
  obtain ⟨raws, blocks, hraws, hflatten, hnames, htrees, hmakes, hfilled⟩ := exists_trees h
  -- the first rule is that of the first statement, as the names of both lists agree
  have hstart : g.start? = raws.head?.bind declaredName? := by
    have hhead := congrArg List.head? hnames
    rw [List.head?_map, List.head?_map] at hhead
    rw [start?]
    rcases hraw : raws.head? with _ | raw
    · rw [hraw] at hhead
      cases htop : g.topLevel.head? with
      | none => rfl
      | some name => rw [htop] at hhead; cases hhead
    · rw [hraw] at hhead
      cases htop : g.topLevel.head? with
      | none => rw [htop] at hhead; cases hhead
      | some name =>
        rw [htop] at hhead
        exact (Option.some.inj hhead).symm
  -- there is some statement, since an empty grammar is reported
  have hne : raws ≠ [] := by
    rintro rfl
    rw [compile, hraws] at h
    cases h
  -- what is said of rules by their places
  refine ⟨hfilled, ⟨raws, blocks, hraws, hnames, ?_, hstart, hflatten, htrees⟩, ?_, ?_⟩
  · obtain ⟨raw, rest, rfl⟩ := List.exists_cons_of_ne_nil hne
    rw [start?]
    cases htop : g.topLevel with
    | nil => rw [htop] at hnames; cases hnames
    | cons name names => rfl
  · intro before r after heq
    constructor
    · -- what stands before a lifted rule
      intro hlifted
      rw [hflatten] at heq
      refine exists_nearest_root (fun block hblock => ?_) heq hlifted
      obtain ⟨s, hblock⟩ := hmakes block hblock
      obtain ⟨root, below, hcons, hname, hroot, hbelow⟩ := hblock.exists_root
      exact ⟨root, below, hcons, hroot, hname ▸ hbelow⟩
    · -- what stands behind a rule with a bracket
      intro bracket name hatom
      have hp : (bracket.word, name) ∈ r.brackets := List.mem_filterMap.mpr ⟨_, hatom, rfl⟩
      exact hg.exists_rule_after heq hp
  · -- a lifted rule has a kind, and one bracket in the grammar refers to it
    intro r hr hlifted
    obtain ⟨owner, hfrom⟩ := hg.liftedFrom_of_isLifted hr hlifted
    obtain ⟨bracket, hkind⟩ := hfrom.kind_eq
    exact ⟨bracket.word, hkind, hg.filter_brackets_eq hr hkind⟩

end Grammar

end AnyEngine

namespace Grammar

attribute [local instance] Pattern.Engine.verbatim

/-- The tree of lists, with a bracket in a bracket. -/
theorem rules_form_forest_listText :
    compile listText = .ok listGrammar ∧ listGrammar.start? = some "L" ∧
      ∃ r' ∈ listGrammar.rules.drop 2, r'.name = "LSubDef1SubDef1" ∧
        r'.kind = some "repetition" ∧ r'.owner = some "L" := by
  obtain ⟨-, ⟨raws, blocks, hraws, -, -, hstart, -⟩, hplaces, -⟩ :=
    rules_form_forest compile_listText
  obtain ⟨-, hbrackets⟩ := hplaces (listGrammar.rules.take 1) _ (listGrammar.rules.drop 2) rfl
  obtain ⟨r', hr', hname, hkind, -, howner⟩ :=
    hbrackets .repetition "LSubDef1SubDef1" (by decide)
  rw [readStatements_listText] at hraws
  cases hraws
  refine ⟨compile_listText, hstart.trans (by cbv), r', hr', hname, hkind, ?_⟩
  rcases howner with ⟨hroot, -⟩ | howner
  · cases hroot
  · exact howner

end Grammar

end Ebnf
