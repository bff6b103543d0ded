import Ebnf.Proofs.Grammar.Forest
import Ebnf.Proofs.Match.Lookup

/-!
# What a failing statement leaves

A statement is added in steps, which stop where a primary in it cannot be read.  Nothing is taken
back then: the names of the statement and of the brackets that have begun stay reserved, and the
brackets that have ended are defined.  The statement and the brackets around the primary are left
without a rule, so there can be no grammar until they are defined in some other way.

## Main definitions

* `Primary.Torn`, `Definitions.Torn` — where lifting stops, and which slots it leaves.
* `Builder.Grows` — a builder with further slots.
* `Builder.TornBy` — what a step that stops in the midst of lifting leaves.
* `unfilled`, `IsLiftedFrom` — the names without a rule, and how they are made one of the other.
* `SlotOf`, `Begun` — the slots of the brackets that have begun.

## Main results

* `Definitions.tornBy_of_run_lift` — what lifting leaves when it fails.
* `Definitions.Torn.unfilled_eq` — only the brackets around the primary are without a rule.
* `Build.statement_leaves` — **what a statement leaves in a builder.**
-/

namespace Ebnf

open Builder (liftedName)

section AnyEngine

variable [Pattern.Engine]

/-! ### Where lifting stops -/

mutual

/-- `Torn owner parent p why enclosing slots` says that the primary `p` of the rule `parent` is, or
has in it, one that cannot be read.  The names are those of the brackets around that one, from the
outside, and the slots those of all brackets up to it. -/
inductive Primary.Torn (owner : String) :
    String → Primary → Unreadable → List String → List (String × Option Rule) → Prop
  /-- The primary itself cannot be read. -/
  | unreadable (parent why) : Primary.Torn owner parent (.unreadable why) why [] []
  /-- The bracket has begun, and lifting stops in it. -/
  | bracketed {parent bracket k inner why enclosing slots}
    (h : Definitions.Torn owner (liftedName parent k) inner why enclosing slots) :
    Primary.Torn owner parent (.bracketed bracket inner) why (liftedName parent k :: enclosing)
      ((liftedName parent k, none) :: slots)

/-- The same for the primaries of an alternative. -/
inductive Primary.AllTorn (owner : String) :
    String → List Primary → Unreadable → List String → List (String × Option Rule) → Prop
  /-- Lifting stops in the first primary. -/
  | here {parent p rest why enclosing slots} (h : Primary.Torn owner parent p why enclosing slots) :
    Primary.AllTorn owner parent (p :: rest) why enclosing slots
  /-- The brackets in the first primary have rules, and lifting stops in one of the others. -/
  | later {parent p atom rules rest why enclosing slots}
    (head : Primary.LiftsTo owner parent p atom rules)
    (h : Primary.AllTorn owner parent rest why enclosing slots) :
    Primary.AllTorn owner parent (p :: rest) why enclosing (rules.map Rule.slot ++ slots)

/-- The same for the alternatives of definitions: those before the one with the primary are lifted
as a whole. -/
inductive Definitions.Torn (owner : String) :
    String → List (List Primary) → Unreadable → List String → List (String × Option Rule) → Prop
  /-- Lifting stops in the first alternative. -/
  | here {parent alt rest why enclosing slots}
    (h : Primary.AllTorn owner parent alt why enclosing slots) :
    Definitions.Torn owner parent (alt :: rest) why enclosing slots
  /-- The brackets in the first alternative have rules, and lifting stops in one of the others. -/
  | later {parent alt atoms rules rest why enclosing slots}
    (head : Primary.AllLiftTo owner parent alt atoms rules)
    (h : Definitions.Torn owner parent rest why enclosing slots) :
    Definitions.Torn owner parent (alt :: rest) why enclosing (rules.map Rule.slot ++ slots)

end

/-! ### Builders with further slots -/

/-- `b'` has the slots of `b` and after them the given ones, all under different names. -/
structure Builder.Grows (b : Builder) (slots : List (String × Option Rule)) (b' : Builder) :
    Prop where
  slots_eq : b'.slots = b.slots ++ slots
  nodup : b'.order.Nodup

namespace Builder

variable {b b' b'' : Builder} {slots more : List (String × Option Rule)}

theorem Grows.refl (hb : b.order.Nodup) : b.Grows [] b := ⟨(List.append_nil _).symm, hb⟩

theorem Grows.trans (h : b.Grows slots b') (h' : b'.Grows more b'') :
    b.Grows (slots ++ more) b'' :=
  ⟨by rw [h'.slots_eq, h.slots_eq, List.append_assoc], h'.nodup⟩

theorem Extends.grows {rules : List Rule} (h : b.Extends rules b') :
    b.Grows (rules.map Rule.slot) b' :=
  ⟨h.slots_eq, h.nodup⟩

/-- What a step leaves that stops in the midst of lifting: the slots, and a report of the primary in
the rule of the innermost bracket around it. -/
def TornBy (statement parent : String)
    (torn : Unreadable → List String → List (String × Option Rule) → Prop) (b : Builder)
    (fault : BuildFault) (b' : Builder) : Prop :=
  ∃ why enclosing slots, torn why enclosing slots ∧ b.Grows slots b' ∧
    fault = .grammar ⟨why.cause (enclosing.getLast?.getD parent), some statement⟩

end Builder

/-! ### Runs that fail -/

section

variable {owner statement : String}

mutual

/-- What lifting a primary leaves when it fails: the primary cannot be read itself, or stands in a
bracket whose slot remains without a rule. -/
theorem Primary.tornBy_of_run_lift : ∀ (p : Primary) {parent : String} {b b' : Builder}
    {fault : BuildFault}, b.order.Nodup →
    (p.lift owner statement parent).run b = (.error fault, b') →
    Builder.TornBy statement parent (p.Torn owner parent) b fault b'
  -- only what cannot be read and brackets can fail
  | .terminal _, _, _, _, _, _, h | .pattern _, _, _, _, _, _, h | .name _, _, _, _, _, _, h => by
    rw [Primary.lift] at h
    cases h
  | .unreadable why, parent, _, _, _, hb, h => by
    rw [Primary.lift] at h
    cases h
    exact ⟨why, [], [], .unreadable parent why, .refl hb, rfl⟩
  | .bracketed bracket inner, parent, b, b', fault, hb, h => by
    have hb₁ : (b.reserveFresh parent).order.Nodup := Builder.nodup_order_reserveFresh hb parent
    rcases hinner : (Definitions.lift owner statement (b.freshName parent).1 inner).run
      (b.reserveFresh parent) with ⟨fault' | alts, b₁⟩
    · rw [Primary.lift, Build.run_reserveFresh] at h
      cases (Build.run_bind_of_error hinner _).symm.trans h
      obtain ⟨why, enclosing, slots, htorn, hgrows, hfault⟩ :=
        Definitions.tornBy_of_run_lift inner hb₁ hinner
      -- the slot of the bracket stands before those of the brackets in it
      refine ⟨why, (b.freshName parent).1 :: enclosing, ((b.freshName parent).1, none) :: slots,
        .bracketed htorn, ⟨?_, hgrows.nodup⟩, ?_⟩
      · rw [hgrows.slots_eq, Builder.reserveFresh, List.append_assoc, List.singleton_append]
      · rw [hfault, List.getLast?_cons, Option.getD_some]
    · -- a bracket whose inside can be read is lifted
      have hreadable : (Primary.bracketed bracket inner).Readable :=
        Definitions.readable_of_run_lift hinner
      obtain ⟨_, _, _, hrun, -⟩ :=
        @Primary.run_lift _ owner statement (.bracketed bracket inner) hreadable parent b hb
      rw [h] at hrun
      cases hrun

theorem Primary.tornBy_of_run_liftAll : ∀ (ps : List Primary) {parent : String} {b b' : Builder}
    {fault : BuildFault}, b.order.Nodup →
    (Primary.liftAll owner statement parent ps).run b = (.error fault, b') →
    Builder.TornBy statement parent (Primary.AllTorn owner parent ps) b fault b'
  | [], _, _, _, _, _, h => by
    rw [Primary.liftAll] at h
    cases h
  | p :: rest, parent, b, b', fault, hb, h => by
    rw [Primary.liftAll] at h
    rcases Build.run_cons_eq_error h with hhead | ⟨atom, s, hhead, htail⟩
    · obtain ⟨why, enclosing, slots, htorn, hleaves⟩ := Primary.tornBy_of_run_lift p hb hhead
      exact ⟨why, enclosing, slots, .here htorn, hleaves⟩
    · obtain ⟨_, rules, _, hrun, hext, -, hlifts⟩ := @Primary.run_lift _ owner statement p
        (Primary.readable_of_run_lift hhead) parent b hb
      rw [hhead] at hrun
      cases hrun
      obtain ⟨why, enclosing, slots, htorn, hgrows, hfault⟩ :=
        Primary.tornBy_of_run_liftAll rest hext.nodup htail
      exact ⟨why, enclosing, _, .later hlifts htorn, hext.grows.trans hgrows, hfault⟩

/-- What lifting leaves when it fails: the rules of all brackets before the primary that cannot be
read, and a slot without a rule for each bracket around it. -/
theorem Definitions.tornBy_of_run_lift : ∀ (d : List (List Primary)) {parent : String}
    {b b' : Builder} {fault : BuildFault}, b.order.Nodup →
    (Definitions.lift owner statement parent d).run b = (.error fault, b') →
    Builder.TornBy statement parent (Definitions.Torn owner parent d) b fault b'
  | [], _, _, _, _, _, h => by
    rw [Definitions.lift] at h
    cases h
  | alt :: rest, parent, b, b', fault, hb, h => by
    rw [Definitions.lift] at h
    rcases Build.run_cons_eq_error h with hhead | ⟨atoms, s, hhead, htail⟩
    · obtain ⟨why, enclosing, slots, htorn, hleaves⟩ := Primary.tornBy_of_run_liftAll alt hb hhead
      exact ⟨why, enclosing, slots, .here htorn, hleaves⟩
    · obtain ⟨_, rules, _, hrun, hext, -, hlifts⟩ := @Primary.run_liftAll _ owner statement alt
        (Primary.allReadable_of_run_liftAll hhead) parent b hb
      rw [hhead] at hrun
      cases hrun
      obtain ⟨why, enclosing, slots, htorn, hgrows, hfault⟩ :=
        Definitions.tornBy_of_run_lift rest hext.nodup htail
      exact ⟨why, enclosing, _, .later hlifts htorn, hext.grows.trans hgrows, hfault⟩

end

end

/-! ### What is left -/

/-- The names without a rule, in order. -/
def unfilled (slots : List (String × Option Rule)) : List String :=
  (slots.filter (·.2.isNone)).map (·.1)

theorem unfilled_cons_none (name : String) (slots : List (String × Option Rule)) :
    unfilled ((name, none) :: slots) = name :: unfilled slots := by
  rw [unfilled, List.filter_cons_of_pos rfl, List.map_cons, unfilled]

theorem unfilled_map_slot_append (rules : List Rule) (slots : List (String × Option Rule)) :
    unfilled (rules.map Rule.slot ++ slots) = unfilled slots := by
  have hnone : (rules.map Rule.slot).filter (·.2.isNone) = [] := by
    rw [List.filter_eq_nil_iff]
    intro slot hslot
    obtain ⟨r, -, rfl⟩ := List.mem_map.mp hslot
    exact Bool.false_ne_true
  rw [unfilled, List.filter_append, hnone, List.nil_append, unfilled]

/-- The second name is one for a bracket in the rule with the first name. -/
def IsLiftedFrom (parent name : String) : Prop := ∃ k, name = liftedName parent k

/-- The slot has no rule, or the one that is made of the bracket as it is written. -/
def SlotOf (owner : String) (written : Bracket × Definitions) (slot : String × Option Rule) :
    Prop :=
  ∀ r, slot.2 = some r → r.name = slot.1 ∧ r.IsMadeOf owner written

/-- The slots are those of the first of the brackets, in order. -/
def Begun (owner : String) (written : List (Bracket × Definitions))
    (slots : List (String × Option Rule)) : Prop :=
  ∃ begun, begun <+: written ∧ List.Forall₂ (SlotOf owner) begun slots

namespace Begun

variable {owner : String} {written : List (Bracket × Definitions)}
  {slots : List (String × Option Rule)}

theorem append_right (h : Begun owner written slots) (rest : List (Bracket × Definitions)) :
    Begun owner (written ++ rest) slots := by
  obtain ⟨begun, hbegun, hslots⟩ := h
  exact ⟨begun, hbegun.trans (List.prefix_append _ _), hslots⟩

/-- The bracket has begun in which others have. -/
theorem cons_none (h : Begun owner written slots) (bracket : Bracket × Definitions)
    (name : String) : Begun owner (bracket :: written) ((name, none) :: slots) := by
  obtain ⟨begun, hbegun, hslots⟩ := h
  exact ⟨bracket :: begun, List.cons_prefix_cons.mpr ⟨rfl, hbegun⟩, .cons nofun hslots⟩

/-- The brackets before have rules. -/
theorem append_left {first : List (Bracket × Definitions)} {rules : List Rule}
    (hrules : List.Forall₂ (Rule.IsMadeOf owner) first rules) (h : Begun owner written slots) :
    Begun owner (first ++ written) (rules.map Rule.slot ++ slots) := by
  obtain ⟨begun, hbegun, hslots⟩ := h
  refine ⟨first ++ begun, (List.prefix_append_right_inj _).mpr hbegun, List.rel_append ?_ hslots⟩
  rw [List.forall₂_map_right_iff]
  refine hrules.imp fun bracket r hr r' hr' => ?_
  cases hr'
  exact ⟨rfl, hr⟩

end Begun

section

variable {owner : String}

mutual

theorem Primary.Torn.unfilled_eq : ∀ {parent p why enclosing slots},
    Primary.Torn owner parent p why enclosing slots → unfilled slots = enclosing
  | _, _, _, _, _, .unreadable _ _ => rfl
  | _, _, _, _, _, .bracketed h => by rw [unfilled_cons_none, h.unfilled_eq]

theorem Primary.AllTorn.unfilled_eq : ∀ {parent ps why enclosing slots},
    Primary.AllTorn owner parent ps why enclosing slots → unfilled slots = enclosing
  | _, _, _, _, _, .here h => h.unfilled_eq
  | _, _, _, _, _, .later _ h => by rw [unfilled_map_slot_append, h.unfilled_eq]

/-- Only the brackets around the primary are without a rule, in the order in which they begin. -/
theorem Definitions.Torn.unfilled_eq : ∀ {parent d why enclosing slots},
    Definitions.Torn owner parent d why enclosing slots → unfilled slots = enclosing
  | _, _, _, _, _, .here h => h.unfilled_eq
  | _, _, _, _, _, .later _ h => by rw [unfilled_map_slot_append, h.unfilled_eq]

end

mutual

theorem Primary.Torn.isChain : ∀ {parent p why enclosing slots},
    Primary.Torn owner parent p why enclosing slots →
    List.IsChain IsLiftedFrom (parent :: enclosing)
  | _, _, _, _, _, .unreadable parent _ => .singleton parent
  | _, _, _, _, _, .bracketed h => .cons_cons ⟨_, rfl⟩ h.isChain

theorem Primary.AllTorn.isChain : ∀ {parent ps why enclosing slots},
    Primary.AllTorn owner parent ps why enclosing slots →
    List.IsChain IsLiftedFrom (parent :: enclosing)
  | _, _, _, _, _, .here h => h.isChain
  | _, _, _, _, _, .later _ h => h.isChain

/-- The names of the brackets around the primary are made one of the other. -/
theorem Definitions.Torn.isChain : ∀ {parent d why enclosing slots},
    Definitions.Torn owner parent d why enclosing slots →
    List.IsChain IsLiftedFrom (parent :: enclosing)
  | _, _, _, _, _, .here h => h.isChain
  | _, _, _, _, _, .later _ h => h.isChain

end

mutual

theorem Primary.Torn.begun : ∀ {parent p why enclosing slots},
    Primary.Torn owner parent p why enclosing slots → Begun owner p.preorder slots
  | _, _, _, _, _, .unreadable _ _ => ⟨[], List.prefix_rfl, .nil⟩
  | _, _, _, _, _, @Primary.Torn.bracketed _ _ _ bracket _ inner _ _ _ h => by
    rw [Primary.preorder]
    exact h.begun.cons_none (bracket, inner) _

theorem Primary.AllTorn.begun : ∀ {parent ps why enclosing slots},
    Primary.AllTorn owner parent ps why enclosing slots →
    Begun owner (Primary.allPreorder ps) slots
  | _, _, _, _, _, .here h => h.begun.append_right _
  | _, _, _, _, _, .later head h => h.begun.append_left head.forall₂_preorder

/-- The slots are those of the first brackets that are written, in order. -/
theorem Definitions.Torn.begun : ∀ {parent d why enclosing slots},
    Definitions.Torn owner parent d why enclosing slots →
    Begun owner (Definitions.preorder d) slots
  | _, _, _, _, _, .here h => h.begun.append_right _
  | _, _, _, _, _, .later head h => h.begun.append_left head.forall₂_preorder

end

end

/-! ### Grammars -/

/-- There is a grammar only if every name that is reserved has a rule. -/
theorem Builder.exists_lookup_of_freeze {b : Builder} {g : Grammar} (h : b.freeze = .ok g)
    {name : String} (hname : name ∈ b.order) : ∃ r, b.slots.lookup name = some (some r) := by
  have hfilled := filled_of_rules (freeze_eq_ok h).1
  rcases hlookup : b.slots.lookup name with _ | rule
  · exact absurd hname (lookup_eq_none_iff.mp hlookup)
  · obtain ⟨r, -, hr⟩ := exists_of_forall₂_left hfilled (mem_of_lookup_eq_some hlookup)
    exact ⟨r, congrArg some hr⟩

/-- Once names are reserved there is no grammar until all of them have rules. -/
theorem Builder.Reaches.exists_lookup_of_freeze {b b' : Builder} (h : b.Reaches b') {g : Grammar}
    (hg : b'.freeze = .ok g) {name : String} (hname : name ∈ b.order) :
    ∃ r, b'.slots.lookup name = some (some r) :=
  Builder.exists_lookup_of_freeze hg (h.continues.order_prefix.subset hname)

namespace Build

variable {raw : List Char} {s : Statement} {b b' : Builder} {fault : BuildFault}

theorem run_statement_of_error {fault : Fault} (h : Statement.read raw = .error fault)
    (b : Builder) : (Build.statement raw).run b = (.error (.grammar fault), b) := by
  rw [Build.statement, h, run_throw]

theorem run_statement_of_mem (h : Statement.read raw = .ok s) (hmem : s.name ∈ b.order) :
    (Build.statement raw).run b
      = (.error (.grammar ⟨.duplicateIdentifier s.name, some s.text⟩), b) := by
  rw [Build.statement, h]
  exact run_bind_of_error (run_reserve_of_mem hmem _) _

/-- A statement that fails when its name has been reserved fails in its definitions. -/
theorem tornBy_of_run_statement (hb : b.order.Nodup) (hread : Statement.read raw = .ok s)
    (hname : s.name ∉ b.order) (h : (Build.statement raw).run b = (.error fault, b')) :
    Builder.TornBy s.text s.name (Definitions.Torn s.name s.name s.definitions)
      { b with slots := b.slots ++ [(s.name, none)] } fault b' := by
  have hb₁ := Builder.nodup_order_reserve hb hname
  rcases hlift : (Definitions.lift s.name s.text s.name s.definitions).run
    { b with slots := b.slots ++ [(s.name, none)] } with ⟨fault' | alts, b₂⟩
  · rw [Build.statement, hread] at h
    dsimp only at h
    rw [run_bind (run_reserve hname _), run_bind_of_error hlift] at h
    cases h
    exact Definitions.tornBy_of_run_lift s.definitions hb₁ hlift
  · -- a statement whose definitions can be read is added
    obtain ⟨_, _, _, hrun, -⟩ :=
      run_statement hread (Definitions.readable_of_run_lift hlift) hname hb
    rw [h] at hrun
    cases hrun

/-- **What a statement leaves in a builder.**  If it can be added, its name and those of its
brackets are there in the end, in pre-order and with their rules.  If it has no name that could be
reserved, the builder stays as it was.  Otherwise there are further slots: those of the statement
and of the brackets up to the primary that cannot be read.  The statement and the brackets around
the primary have no rule, and each name of these is made of the one before; all others have theirs.
Until these have rules too there is no grammar, whatever is done with the builder. -/
theorem statement_leaves (raw : List Char) {b : Builder} (hb : b.order.Nodup) :
    (∀ name b', (Build.statement raw).run b = (.ok name, b') →
      ∃ s rules, Statement.read raw = .ok s ∧ s.name = name ∧ IsTreeOf raw rules ∧
        b'.slots = b.slots ++ rules.map Rule.slot) ∧
    (∀ fault, Statement.read raw = .error fault →
      (Build.statement raw).run b = (.error (.grammar fault), b)) ∧
    (∀ s, Statement.read raw = .ok s → s.name ∈ b.order → (Build.statement raw).run b
      = (.error (.grammar ⟨.duplicateIdentifier s.name, some s.text⟩), b)) ∧
    ∀ s fault b', Statement.read raw = .ok s → s.name ∉ b.order →
      (Build.statement raw).run b = (.error fault, b') →
      ∃ why enclosing slots, Definitions.Torn s.name s.name s.definitions why enclosing slots ∧
        fault = .grammar ⟨why.cause (enclosing.getLast?.getD s.name), some s.text⟩ ∧
        b'.slots = b.slots ++ (s.name, none) :: slots ∧
        Begun s.name (Definitions.preorder s.definitions) slots ∧
        unfilled ((s.name, none) :: slots) = s.name :: enclosing ∧
        List.IsChain IsLiftedFrom (s.name :: enclosing) ∧
        ∀ b'' g, b'.Reaches b'' → b''.freeze = .ok g → ∀ name ∈ s.name :: enclosing,
          ∃ r, b''.slots.lookup name = some (some r) := by
  refine ⟨fun name b' h => ?_, fun fault h => run_statement_of_error h b,
    fun s hread hmem => run_statement_of_mem hread hmem, fun s fault b' hread hname h => ?_⟩
  · -- a statement that is added has its whole tree, so nothing of it is open
    obtain ⟨s, rules, hread, rfl, hmakes, hext, -⟩ := run_statement_eq_ok hb h
    exact ⟨s, rules, hread, rfl, hmakes.isTreeOf hread, hext.slots_eq⟩
  · -- otherwise the names without a rule are read off the slots in their order
    obtain ⟨why, enclosing, slots, htorn, hgrows, hfault⟩ :=
      tornBy_of_run_statement hb hread hname h
    have hslots : b'.slots = b.slots ++ (s.name, none) :: slots := by
      rw [hgrows.slots_eq, List.append_assoc, List.singleton_append]
    have hunfilled : unfilled ((s.name, none) :: slots) = s.name :: enclosing := by
      rw [unfilled_cons_none, htorn.unfilled_eq]
    refine ⟨why, enclosing, slots, htorn, hfault, hslots, htorn.begun, hunfilled,
      htorn.isChain, fun b'' g hreaches hfreeze name hmem => ?_⟩
    -- a name without a rule is reserved
    refine hreaches.exists_lookup_of_freeze hfreeze ?_
    rw [← hunfilled] at hmem
    rw [Builder.order, hslots, List.map_append]
    exact List.mem_append_right _ (List.map_subset _ (List.filter_subset_self _) hmem)

end Build

end AnyEngine

namespace Build

attribute [local instance] Pattern.Engine.verbatim

/-- A statement that stops within its second bracket. -/
def openStatement : List Char :=
  ['X', '=', '[', '"', 'a', '"', ']', ',', '(', '"', 'b', '"', ',', ')']

/-- What it leaves of a builder without rules. -/
def openBuilder : Builder where
  declared := []
  slots := [("X", none),
    ("XSubDef1", some ⟨"XSubDef1", [[.terminal "a"]], "XSubDef1=\"a\"", some "X",
      some "optional"⟩),
    ("XSubDef2", none)]
  counters := [("X", 2), ("X", 1)]

theorem read_open : Statement.read openStatement = .ok ⟨"X",
    [[.bracketed .optional [[.terminal ['a']]],
      .bracketed .group [[.terminal ['b'], .unreadable .emptyAtom]]]],
    "X=[\"a\"],(\"b\",)"⟩ := by
  cbv

theorem run_statement_open : (Build.statement openStatement).run (.empty [])
    = (.error (.grammar ⟨.emptyAtom "XSubDef2", some "X=[\"a\"],(\"b\",)"⟩), openBuilder) := by
  rw [Build.statement, read_open]
  rfl

/-- Where a bracket has ended and another one has not. -/
theorem statement_leaves_open :
    (∃ fault, (Build.statement openStatement).run (.empty []) = (.error fault, openBuilder)) ∧
      ∀ b g, openBuilder.Reaches b → b.freeze = .ok g →
        ∀ name ∈ ["X", "XSubDef2"], ∃ r, b.slots.lookup name = some (some r) := by
  obtain ⟨-, -, -, hfails⟩ := @statement_leaves _ openStatement (.empty []) List.nodup_nil
  obtain ⟨_, enclosing, slots, -, -, hslots, -, hunfilled, -, hfreeze⟩ :=
    hfails _ _ _ read_open List.not_mem_nil run_statement_open
  -- the slots left show which names have no rule
  have hchain : "X" :: enclosing = ["X", "XSubDef2"] :=
    hunfilled.symm.trans (congrArg unfilled hslots.symm)
  exact ⟨⟨_, run_statement_open⟩, fun b g hreaches hg => hchain ▸ hfreeze b g hreaches hg⟩

end Build

end Ebnf
