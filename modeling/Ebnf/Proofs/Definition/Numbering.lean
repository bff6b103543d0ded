import Ebnf.Proofs.Definition.Lifting

/-!
# The numbers in the names of brackets

The number in the name of a bracket's rule is the first that gives a name which no statement
declares, after the numbers of the brackets before it in the same rule.  Names that are reserved do
not matter: a lifted name is reserved only by the rule it is made for, which counts on, or by a
statement that declares it.  So what is lifted out of a statement is a function of the statement and
of the names declared, and a run of the builder computes it wherever the statement stands.

## Main definitions

* `nextNumber` — the number after a number, where nothing is reserved.
* `Primary.lifted`, `Definitions.lifted` — what lifting makes of definitions, with all numbers.
* `Builder.Numbered` — reserved names are declared or have been counted.
* `Builder.Takes` — a builder takes in rules lifted out of a rule.

## Main results

* `nextNumber_spec` — the next number is the first whose name is not declared.
* `Builder.Numbered.freshNumber_eq` — a builder's next number is `nextNumber`.
* `Definitions.takes_of_run_lift` — **a run of lifting adds what `Definitions.lifted` says.**
-/

namespace Ebnf

open Source (unescape)
open Builder (liftedName)

variable [Pattern.Engine]

/-- The number of the next fresh name for `parent` after the `k`-th, where nothing is reserved. -/
def nextNumber (declared : List String) (parent : String) (k : Nat) : Nat :=
  (⟨declared, [], [(parent, k)]⟩ : Builder).freshNumber parent

theorem Builder.counter_singleton (declared : List String) (parent : String) (k : Nat) :
    (⟨declared, [], [(parent, k)]⟩ : Builder).counter parent = k := by
  rw [counter, List.lookup_cons_self, Option.getD_some]

/-- The next number is the first one after the last whose name is not declared. Reserved names do
not count here: a builder in which names are numbered has none that could be in the way. -/
theorem nextNumber_spec (declared : List String) (parent : String) (k : Nat) :
    k < nextNumber declared parent k ∧
      liftedName parent (nextNumber declared parent k) ∉ declared ∧
      ∀ j, k < j → j < nextNumber declared parent k → liftedName parent j ∈ declared := by
  let b : Builder := ⟨declared, [], [(parent, k)]⟩
  have hcounter : b.counter parent = k := Builder.counter_singleton declared parent k
  refine ⟨?_, (Builder.isFree_eq_true_iff.mp (b.isFree_freshName parent)).2, fun j hk hj => ?_⟩
  · have hlt := b.counter_lt_freshNumber parent
    rwa [hcounter] at hlt
  · by_contra hno
    have hfree : b.isFree (liftedName parent j) = true :=
      Builder.isFree_eq_true_iff.mpr ⟨List.not_mem_nil, hno⟩
    rw [Builder.isFree_eq_false_of_lt_freshNumber (hcounter.symm ▸ hk) hj] at hfree
    cases hfree

theorem nextNumber_congr {declared declared' : List String}
    (h : ∀ name, name ∈ declared ↔ name ∈ declared') :
    nextNumber declared = nextNumber declared' := by
  funext parent k
  refine Builder.freshNumber_congr rfl fun j _ => ?_
  rw [Bool.eq_iff_iff, Builder.isFree_eq_true_iff, Builder.isFree_eq_true_iff]
  exact and_congr_right fun _ => not_congr (h _)

/-! ### What is lifted -/

/-- What lifting leaves of something in a rule, the rules that it makes, and the number of the last
rule that it made out of that rule itself. -/
structure Lifted (α : Type) where
  /-- The atoms or alternatives that are left. -/
  left : List α
  /-- The rules made, in order. -/
  rules : List Rule
  /-- The number of the last one made out of the rule itself. -/
  last : Nat

mutual

/-- What is lifted out of a primary of the rule `parent`, whose last number is `k`.  Nothing is left
of what cannot be read. -/
def Primary.lifted (next : String → Nat → Nat) (owner parent : String) (k : Nat) :
    Primary → Lifted Atom
  | .terminal body => ⟨[.terminal (String.ofList (unescape body))], [], k⟩
  | .pattern p => ⟨[.pattern p], [], k⟩
  | .name name => ⟨[.reference (String.ofList name)], [], k⟩
  | .unreadable _ => ⟨[], [], k⟩
  | .bracketed bracket inner =>
    let name := liftedName parent (next parent k)
    let below := Definitions.lifted next owner name 0 inner
    ⟨[.lifted bracket name], Rule.ofBracket owner name bracket inner below.left :: below.rules,
      next parent k⟩

/-- What is lifted out of the primaries of an alternative. -/
def Primary.allLifted (next : String → Nat → Nat) (owner parent : String) (k : Nat) :
    List Primary → Lifted Atom
  | [] => ⟨[], [], k⟩
  | p :: rest =>
    let first := p.lifted next owner parent k
    let others := Primary.allLifted next owner parent first.last rest
    ⟨first.left ++ others.left, first.rules ++ others.rules, others.last⟩

/-- What is lifted out of definitions, as a function of the names declared and of the numbers taken,
without a builder. -/
def Definitions.lifted (next : String → Nat → Nat) (owner parent : String) (k : Nat) :
    List (List Primary) → Lifted Alternative
  | [] => ⟨[], [], k⟩
  | alt :: rest =>
    let first := Primary.allLifted next owner parent k alt
    let others := Definitions.lifted next owner parent first.last rest
    ⟨first.left :: others.left, first.rules ++ others.rules, others.last⟩

end

section Owner

variable {next : String → Nat → Nat} {owner : String}

mutual

theorem Primary.owner_lifted : ∀ (p : Primary) (parent : String) (k : Nat),
    ∀ r ∈ (p.lifted next owner parent k).rules, r.owner = some owner
  | .terminal _, _, _ => by simp [Primary.lifted]
  | .pattern _, _, _ => by simp [Primary.lifted]
  | .name _, _, _ => by simp [Primary.lifted]
  | .unreadable _, _, _ => by simp [Primary.lifted]
  | .bracketed _ inner, parent, k => by
    intro r hr
    rw [Primary.lifted] at hr
    rcases List.mem_cons.mp hr with rfl | hr
    · rfl
    · exact Definitions.owner_lifted inner _ 0 r hr

theorem Primary.owner_allLifted : ∀ (ps : List Primary) (parent : String) (k : Nat),
    ∀ r ∈ (Primary.allLifted next owner parent k ps).rules, r.owner = some owner
  | [], _, _ => by simp [Primary.allLifted]
  | p :: rest, parent, k => by
    intro r hr
    rw [Primary.allLifted] at hr
    rcases List.mem_append.mp hr with hr | hr
    · exact Primary.owner_lifted p parent k r hr
    · exact Primary.owner_allLifted rest parent _ r hr

/-- The rules lifted out of definitions belong to the rule of the statement. -/
theorem Definitions.owner_lifted : ∀ (d : List (List Primary)) (parent : String) (k : Nat),
    ∀ r ∈ (Definitions.lifted next owner parent k d).rules, r.owner = some owner
  | [], _, _ => by simp [Definitions.lifted]
  | alt :: rest, parent, k => by
    intro r hr
    rw [Definitions.lifted] at hr
    rcases List.mem_append.mp hr with hr | hr
    · exact Primary.owner_allLifted alt parent k r hr
    · exact Definitions.owner_lifted rest parent _ r hr

end

mutual

theorem Primary.liftsTo_lifted : ∀ (p : Primary), p.Readable → ∀ (parent : String) (k : Nat),
    ∃ atom, (p.lifted next owner parent k).left = [atom] ∧
      Primary.LiftsTo owner parent p atom (p.lifted next owner parent k).rules
  | .terminal body, _, parent, _ => by
    rw [Primary.lifted]
    exact ⟨_, rfl, .terminal parent body⟩
  | .pattern p, _, parent, _ => by
    rw [Primary.lifted]
    exact ⟨_, rfl, .pattern parent p⟩
  | .name name, _, parent, _ => by
    rw [Primary.lifted]
    exact ⟨_, rfl, .name parent name⟩
  | .bracketed _ inner, h, parent, k => by
    rw [Primary.lifted]
    exact ⟨_, rfl, .bracketed (Definitions.liftTo_lifted inner h _ 0)⟩

theorem Primary.allLiftTo_allLifted : ∀ (ps : List Primary), Primary.AllReadable ps →
    ∀ (parent : String) (k : Nat), Primary.AllLiftTo owner parent ps
      (Primary.allLifted next owner parent k ps).left
      (Primary.allLifted next owner parent k ps).rules
  | [], _, parent, _ => by
    rw [Primary.allLifted]
    exact .nil parent
  | p :: rest, h, parent, k => by
    obtain ⟨atom, hleft, hhead⟩ := Primary.liftsTo_lifted p h.1 parent k
    have htail := Primary.allLiftTo_allLifted rest h.2 parent (p.lifted next owner parent k).last
    rw [Primary.allLifted]
    dsimp only
    rw [hleft]
    exact .cons hhead htail

/-- Definitions that can be read lift to what is lifted out of them. -/
theorem Definitions.liftTo_lifted : ∀ (d : List (List Primary)), Definitions.Readable d →
    ∀ (parent : String) (k : Nat), Definitions.LiftTo owner parent d
      (Definitions.lifted next owner parent k d).left
      (Definitions.lifted next owner parent k d).rules
  | [], _, parent, _ => by
    rw [Definitions.lifted]
    exact .nil parent
  | alt :: rest, h, parent, k => by
    have hhead := Primary.allLiftTo_allLifted alt h.1 parent k
    have htail := Definitions.liftTo_lifted rest h.2 parent
      (Primary.allLifted next owner parent k alt).last
    rw [Definitions.lifted]
    exact .cons hhead htail

end

end Owner

/-! ### Counters -/

namespace Builder

variable {b b' : Builder} {parent : String}

/-- The builder after a fresh name for a rule lifted out of `parent` has been reserved. -/
def reserveFresh (b : Builder) (parent : String) : Builder :=
  { (b.freshName parent).2 with slots := b.slots ++ [((b.freshName parent).1, none)] }

theorem mem_order_reserve {name other : String} {rule : Option Rule} :
    other ∈ order { b with slots := b.slots ++ [(name, rule)] } ↔
      other ∈ b.order ∨ other = name := by
  rw [order, List.map_append, List.mem_append, List.map_singleton, List.mem_singleton, order]

theorem mem_order_reserveFresh {name : String} :
    name ∈ (b.reserveFresh parent).order ↔ name ∈ b.order ∨ name = (b.freshName parent).1 :=
  mem_order_reserve (b := (b.freshName parent).2)

theorem nodup_order_reserveFresh (hb : b.order.Nodup) (parent : String) :
    (b.reserveFresh parent).order.Nodup :=
  nodup_order_reserve (b := (b.freshName parent).2) hb (b.freshName_notMem_order parent)

theorem counter_reserveFresh_self (b : Builder) (parent : String) :
    (b.reserveFresh parent).counter parent = b.freshNumber parent := by
  have h := b.counter_freshName parent parent
  rwa [if_pos rfl] at h

theorem counter_reserveFresh_of_ne {name : String} (h : name ≠ parent) (b : Builder) :
    (b.reserveFresh parent).counter name = b.counter name := by
  have hcounter := b.counter_freshName parent name
  rwa [if_neg h] at hcounter

/-- The reserved names that were lifted out of a rule are declared or have been counted, and only
rules that are reserved have counters. -/
structure Numbered (b : Builder) : Prop where
  mem_declared : ∀ parent k, b.counter parent < k → liftedName parent k ∈ b.order →
    liftedName parent k ∈ b.declared
  counter_eq_zero : ∀ name, name ∉ b.order → b.counter name = 0

theorem numbered_empty (declared : List String) : (Builder.empty declared).Numbered :=
  ⟨fun _ _ _ h => absurd h List.not_mem_nil, fun _ _ => rfl⟩

namespace Numbered

/-- The next number depends only on the names declared and on the numbers before, so that the names
of brackets can be told without a builder. -/
theorem freshNumber_eq (h : b.Numbered) (parent : String) :
    b.freshNumber parent = nextNumber b.declared parent (b.counter parent) := by
  refine freshNumber_congr (counter_singleton _ _ _).symm fun k hk => ?_
  rw [Bool.eq_iff_iff, isFree_eq_true_iff, isFree_eq_true_iff]
  constructor
  · exact fun ⟨_, hfree⟩ => ⟨List.not_mem_nil, hfree⟩
  · exact fun ⟨_, hfree⟩ => ⟨fun hmem => hfree (h.mem_declared parent k hk hmem), hfree⟩

theorem freshName_eq (h : b.Numbered) (parent : String) :
    (b.freshName parent).1
      = liftedName parent (nextNumber b.declared parent (b.counter parent)) := by
  rw [← h.freshNumber_eq]
  rfl

theorem congr (h : b.Numbered) (hdeclared : b'.declared = b.declared) (horder : b'.order = b.order)
    (hcounters : b'.counters = b.counters) : b'.Numbered := by
  have hcounter : b'.counter = b.counter := by
    funext name
    rw [counter, counter, hcounters]
  constructor
  · rw [hdeclared, horder, hcounter]
    exact h.mem_declared
  · rw [horder, hcounter]
    exact h.counter_eq_zero

/-- A name that is declared may be reserved. -/
theorem reserve (h : b.Numbered) {name : String} (hname : name ∈ b.declared) :
    Numbered { b with slots := b.slots ++ [(name, none)] } := by
  constructor
  · intro parent k hk hmem
    rcases mem_order_reserve.mp hmem with hmem | hmem
    · exact h.mem_declared parent k hk hmem
    · exact hmem ▸ hname
  · exact fun other hother => h.counter_eq_zero other fun hmem =>
      hother (mem_order_reserve.mpr (Or.inl hmem))

/-- The fresh name of a reserved rule may be reserved: it is the last one counted. -/
theorem reserveFresh (h : b.Numbered) (hparent : parent ∈ b.order) :
    (b.reserveFresh parent).Numbered := by
  constructor
  · intro parent' k hk hmem
    rcases mem_order_reserveFresh.mp hmem with hmem | hname
    · refine h.mem_declared parent' k (Nat.lt_of_le_of_lt ?_ hk) hmem
      by_cases hne : parent' = parent
      · subst hne
        rw [counter_reserveFresh_self]
        exact Nat.le_of_lt (b.counter_lt_freshNumber parent')
      · exact Nat.le_of_eq (counter_reserveFresh_of_ne hne b).symm
    · obtain ⟨rfl, rfl⟩ := liftedName_inj hname
      rw [counter_reserveFresh_self] at hk
      exact absurd hk (Nat.lt_irrefl _)
  · intro name hname
    have hfree : name ∉ b.order := fun hmem => hname (mem_order_reserveFresh.mpr (Or.inl hmem))
    have hne : name ≠ parent := fun heq => hfree (heq ▸ hparent)
    rw [counter_reserveFresh_of_ne hne]
    exact h.counter_eq_zero name hfree

/-- The fresh name of a reserved rule has no numbers yet. -/
theorem counter_freshName_eq_zero (h : b.Numbered) (hparent : parent ∈ b.order) :
    (b.reserveFresh parent).counter (b.freshName parent).1 = 0 := by
  have hfresh : (b.freshName parent).1 ∉ b.order := b.freshName_notMem_order parent
  have hne : (b.freshName parent).1 ≠ parent := fun heq => hfresh (by rwa [heq])
  rw [counter_reserveFresh_of_ne hne]
  exact h.counter_eq_zero _ hfresh

end Numbered

/-! ### Taking in rules -/

/-- `b'` is `b` with what was lifted out of `parent`; the counters of all other rules in `b` are as
they were. -/
structure Takes {α : Type} (b : Builder) (parent : String) (l : Lifted α) (b' : Builder) :
    Prop where
  adds : b.Extends l.rules b'
  numbered : b'.Numbered
  counter_eq : b'.counter parent = l.last
  counter_eq_of_ne : ∀ name ∈ b.order, name ≠ parent → b'.counter name = b.counter name

namespace Takes

variable {α β γ : Type} {l : Lifted α} {l' : Lifted β} {b'' : Builder}

theorem refl (hb : b.order.Nodup) (h : b.Numbered) (parent : String) (left : List α) :
    b.Takes parent ⟨left, [], b.counter parent⟩ b :=
  ⟨.refl hb, h, rfl, fun _ _ _ => rfl⟩

theorem mem_order (h : b.Takes parent l b') {name : String} (hname : name ∈ b.order) :
    name ∈ b'.order := by
  rw [h.adds.order_eq]
  exact List.mem_append_left _ hname

theorem trans (h : b.Takes parent l b') (h' : b'.Takes parent l' b'') (left : List γ) :
    b.Takes parent ⟨left, l.rules ++ l'.rules, l'.last⟩ b'' :=
  ⟨h.adds.trans h'.adds, h'.numbered, h'.counter_eq, fun name hname hne =>
    (h'.counter_eq_of_ne name (h.mem_order hname) hne).trans (h.counter_eq_of_ne name hname hne)⟩

end Takes

end Builder

namespace Build

theorem run_reserveFresh {α : Type} (parent : String) (statement : Option String)
    (f : String → Build α) (b : Builder) :
    (do let name ← freshName parent; reserve name statement; f name : Build α).run b
      = (f (b.freshName parent).1).run (b.reserveFresh parent) := by
  have hfresh : (b.freshName parent).1 ∉ (b.freshName parent).2.order :=
    b.freshName_notMem_order parent
  rw [run_bind (run_freshName parent b), run_bind (run_reserve hfresh statement)]
  rfl

theorem counters_of_run_define {r : Rule} {b b' : Builder}
    (h : (define r).run b = (.ok (), b')) : b'.counters = b.counters := by
  rcases hb : b.define r with fault | s
  · rw [define, run_bind (run_get b), hb] at h
    cases h
  · rw [define, run_bind (run_get b), hb] at h
    cases h
    rw [Builder.define] at hb
    split at hb
    · cases hb
    · cases hb
    · cases hb
      rfl

end Build

namespace Builder.Takes

variable {α β : Type} {b b₁ b₂ : Builder} {parent : String} {r : Rule} {below : Lifted α}

/-- When a rule is defined whose name was reserved before what is below it was taken in. -/
theorem run_define (hfresh : r.name ∉ b.order)
    (hbelow : Takes { b with slots := b.slots ++ [(r.name, none)] } r.name below b₁)
    (hdefine : (Build.define r).run b₁ = (.ok (), b₂)) :
    b.Extends (r :: below.rules) b₂ ∧ b₂.Numbered ∧
      ∀ name ∈ b.order, b₂.counter name = b.counter name := by
  obtain ⟨_, hrun, hext⟩ := Builder.Extends.run_define hfresh hbelow.adds
  rw [hdefine] at hrun
  cases hrun
  have hcounters := Build.counters_of_run_define hdefine
  refine ⟨hext, hbelow.numbered.congr ?_ ?_ hcounters, fun name hmem => ?_⟩
  · exact hext.declared_eq.trans hbelow.adds.declared_eq.symm
  · -- the rule is defined under a name that the builder has
    rw [hext.order_eq, hbelow.adds.order_eq]
    simp [order]
  · have hne : name ≠ r.name := fun heq => hfresh (heq ▸ hmem)
    rw [counter, hcounters]
    exact hbelow.counter_eq_of_ne name (mem_order_reserve.mpr (Or.inl hmem)) hne

/-- What a bracket takes in: its own rule and those within it, behind a fresh name. -/
theorem of_bracket (hparent : parent ∈ b.order) (hname : r.name = (b.freshName parent).1)
    (hbelow : (b.reserveFresh parent).Takes r.name below b₁)
    (hdefine : (Build.define r).run b₁ = (.ok (), b₂)) (left : List β) :
    b.Takes parent ⟨left, r :: below.rules, b.freshNumber parent⟩ b₂ := by
  have hfresh : r.name ∉ (b.freshName parent).2.order := hname ▸ b.freshName_notMem_order parent
  rw [reserveFresh, ← hname] at hbelow
  obtain ⟨hext, hnumbered, hcounter⟩ := run_define hfresh hbelow hdefine
  refine ⟨⟨hext.declared_eq, hext.slots_eq, hext.nodup⟩, hnumbered, ?_, fun name hmem hne => ?_⟩
  · exact (hcounter parent hparent).trans (counter_reserveFresh_self b parent)
  · exact (hcounter name hmem).trans (counter_reserveFresh_of_ne hne b)

end Builder.Takes

/-! ### Runs of lifting -/

variable {owner statement : String}

mutual

/-- A run of lifting a primary leaves the atom and adds the rules that `Primary.lifted` says, and
counts the bracket if it is one. -/
theorem Primary.takes_of_run_lift : ∀ {p : Primary} {parent : String} {b b' : Builder}
    {atom : Atom}, (p.lift owner statement parent).run b = (.ok atom, b') →
    b.order.Nodup → b.Numbered → parent ∈ b.order →
    (p.lifted (nextNumber b.declared) owner parent (b.counter parent)).left = [atom] ∧
      b.Takes parent (p.lifted (nextNumber b.declared) owner parent (b.counter parent)) b'
  -- what has no brackets takes no name
  | .terminal _, parent, _, _, _, h, hb, hnumbered, _
  | .pattern _, parent, _, _, _, h, hb, hnumbered, _
  | .name _, parent, _, _, _, h, hb, hnumbered, _ => by
    rw [Primary.lift] at h
    cases h
    exact ⟨rfl, .refl hb hnumbered parent _⟩
  | .unreadable _, _, _, _, _, h, _, _, _ => by
    rw [Primary.lift, Build.run_throw] at h
    cases h
  | .bracketed bracket inner, parent, b, b', atom, h, hb, hnumbered, hparent => by
    -- a bracket takes the next number and counts its own from the start
    rw [Primary.lift, Build.run_reserveFresh] at h
    obtain ⟨alts, b₁, hinner, h⟩ := Build.run_bind_eq_ok h
    obtain ⟨_, b₂, hdefine, h⟩ := Build.run_bind_eq_ok h
    cases h
    obtain ⟨hleft, hbelow⟩ := Definitions.takes_of_run_lift hinner
      (Builder.nodup_order_reserveFresh hb parent) (hnumbered.reserveFresh hparent)
      (Builder.mem_order_reserveFresh.mpr (Or.inr rfl))
    rw [hnumbered.counter_freshName_eq_zero hparent] at hleft hbelow
    subst hleft
    have htakes := Builder.Takes.of_bracket hparent rfl hbelow hdefine
      [Atom.lifted bracket (b.freshName parent).1]
    rw [hnumbered.freshName_eq, hnumbered.freshNumber_eq] at htakes
    rw [hnumbered.freshName_eq]
    exact ⟨rfl, htakes⟩

theorem Primary.takes_of_run_liftAll : ∀ {ps : List Primary} {parent : String} {b b' : Builder}
    {atoms : Alternative}, (Primary.liftAll owner statement parent ps).run b = (.ok atoms, b') →
    b.order.Nodup → b.Numbered → parent ∈ b.order →
    (Primary.allLifted (nextNumber b.declared) owner parent (b.counter parent) ps).left = atoms ∧
      b.Takes parent (Primary.allLifted (nextNumber b.declared) owner parent (b.counter parent) ps)
        b'
  | [], parent, _, _, _, h, hb, hnumbered, _ => by
    rw [Primary.liftAll] at h
    cases h
    exact ⟨rfl, .refl hb hnumbered parent _⟩
  | p :: rest, parent, b, b', atoms, h, hb, hnumbered, hparent => by
    rw [Primary.liftAll] at h
    obtain ⟨atom, b₁, hhead, h⟩ := Build.run_bind_eq_ok h
    obtain ⟨others, b₂, htail, h⟩ := Build.run_bind_eq_ok h
    cases h
    -- the primaries behind it go on from the names that the first has taken
    obtain ⟨hatom, hfirst⟩ := Primary.takes_of_run_lift hhead hb hnumbered hparent
    obtain ⟨hothers, hrest⟩ := Primary.takes_of_run_liftAll htail hfirst.adds.nodup
      hfirst.numbered (hfirst.mem_order hparent)
    rw [hfirst.adds.declared_eq, hfirst.counter_eq] at hothers hrest
    rw [Primary.allLifted]
    dsimp only
    rw [hatom, hothers]
    exact ⟨rfl, hfirst.trans hrest _⟩

/-- **A run of lifting adds what `Definitions.lifted` says.** -/
theorem Definitions.takes_of_run_lift : ∀ {d : List (List Primary)} {parent : String}
    {b b' : Builder} {alts : List Alternative},
    (Definitions.lift owner statement parent d).run b = (.ok alts, b') →
    b.order.Nodup → b.Numbered → parent ∈ b.order →
    (Definitions.lifted (nextNumber b.declared) owner parent (b.counter parent) d).left = alts ∧
      b.Takes parent (Definitions.lifted (nextNumber b.declared) owner parent (b.counter parent) d)
        b'
  | [], parent, _, _, _, h, hb, hnumbered, _ => by
    rw [Definitions.lift] at h
    cases h
    exact ⟨rfl, .refl hb hnumbered parent _⟩
  | alt :: rest, parent, b, b', alts, h, hb, hnumbered, hparent => by
    rw [Definitions.lift] at h
    obtain ⟨atoms, b₁, hhead, h⟩ := Build.run_bind_eq_ok h
    obtain ⟨others, b₂, htail, h⟩ := Build.run_bind_eq_ok h
    cases h
    obtain ⟨hatoms, hfirst⟩ := Primary.takes_of_run_liftAll hhead hb hnumbered hparent
    -- the alternatives behind it go on from the names that the first has taken
    obtain ⟨hothers, hrest⟩ := Definitions.takes_of_run_lift htail hfirst.adds.nodup
      hfirst.numbered (hfirst.mem_order hparent)
    rw [hfirst.adds.declared_eq, hfirst.counter_eq] at hothers hrest
    rw [Definitions.lifted]
    dsimp only
    rw [hatoms, hothers]
    exact ⟨rfl, hfirst.trans hrest _⟩

end

end Ebnf
