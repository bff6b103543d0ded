import Ebnf.Definition.Lifting
import Ebnf.Proofs.Grammar.Building
import Mathlib.Logic.Relation

/-!
# Sessions with a builder

A builder can be used in any order, and a use that fails midway leaves it as it then is.  Whatever
is done, it is done in steps that add one name or one rule each, and a failure stops between two
steps.  So what a step keeps, and what it cannot take back, holds at every point of a session.

## Main definitions

* `Builder.Step`, `Builder.Reaches` — one step, and any number of them.
* `Builder.Operation`, `Builder.after` — the uses of a builder, and the builder after some of them.
* `Builder.Sound` — what holds of a builder at every point.
* `Builder.Continues` — what a later builder keeps of an earlier one.

## Main results

* `Builder.reaches_after` — every use of a builder is made of steps.
* `Builder.Step.sound`, `Builder.Step.continues` — what a step keeps.
* `Builder.session_sound` — **the names of a builder at every point of a session.**
-/

namespace Ebnf

section AnyEngine

variable [Pattern.Engine]

namespace Builder

variable {b b' : Builder}

/-! ### Steps -/

/-- A name is reserved, the rule under a name is defined, or a fresh name is made. -/
inductive Step (b : Builder) : Builder → Prop
  | reserve (name : String) (statement : Option String) (b' : Builder)
    (h : b.reserve name statement = .ok b') : Step b b'
  | define (r : Rule) (b' : Builder) (h : b.define r = .ok b') : Step b b'
  | freshName (parent : String) : Step b (b.freshName parent).2

/-- A builder becomes another in any number of steps. -/
abbrev Reaches : Builder → Builder → Prop := Relation.ReflTransGen Step

end Builder

/-! ### Operations -/

namespace Build

open Builder (Reaches)

variable {α β : Type}

/-- A step of building does not leave the builders that can be reached, even if it fails. -/
def Stepwise (x : Build α) : Prop := ∀ b, Reaches b (x.run b).2

theorem stepwise_pure (a : α) : Stepwise (pure a : Build α) := fun _ => .refl

theorem stepwise_throw (fault : BuildFault) : Stepwise (throw fault : Build α) := fun _ => .refl

theorem Stepwise.bind {x : Build α} {f : α → Build β} (hx : x.Stepwise)
    (hf : ∀ a, (f a).Stepwise) : Stepwise (x >>= f) := by
  intro b
  have hfirst := hx b
  rcases hrun : x.run b with ⟨fault | a, s⟩
  · rw [hrun] at hfirst
    rw [run_bind_of_error hrun]
    exact hfirst
  · rw [hrun] at hfirst
    rw [run_bind hrun]
    exact hfirst.trans (hf a s)

theorem stepwise_reserve (name : String) (statement : Option String) :
    Stepwise (reserve name statement) := by
  intro b
  rcases hb : b.reserve name statement with fault | b'
  · rw [reserve, run_bind (run_get b), hb]
    exact .refl
  · rw [reserve, run_bind (run_get b), hb]
    exact .single (.reserve name statement b' hb)

theorem stepwise_define (r : Rule) : Stepwise (define r) := by
  intro b
  rcases hb : b.define r with fault | b'
  · rw [define, run_bind (run_get b), hb]
    exact .refl
  · rw [define, run_bind (run_get b), hb]
    exact .single (.define r b' hb)

theorem stepwise_freshName (parent : String) : Stepwise (freshName parent) :=
  fun _ => .single (.freshName parent)

end Build

section Lifting

variable (owner statement : String)

mutual

theorem Primary.stepwise_lift : ∀ (p : Primary) (parent : String),
    (p.lift owner statement parent).Stepwise
  | .terminal _, _ | .pattern _, _ | .name _, _ => by
    rw [Primary.lift]
    exact Build.stepwise_pure _
  | .unreadable _, _ => by
    rw [Primary.lift]
    exact Build.stepwise_throw _
  | .bracketed _ inner, parent => by
    rw [Primary.lift]
    exact (Build.stepwise_freshName parent).bind fun name =>
      (Build.stepwise_reserve name _).bind fun _ =>
        (Definitions.stepwise_lift inner name).bind fun _ =>
          (Build.stepwise_define _).bind fun _ => Build.stepwise_pure _

theorem Primary.stepwise_liftAll : ∀ (ps : List Primary) (parent : String),
    (Primary.liftAll owner statement parent ps).Stepwise
  | [], _ => by
    rw [Primary.liftAll]
    exact Build.stepwise_pure _
  | p :: rest, parent => by
    rw [Primary.liftAll]
    exact (Primary.stepwise_lift p parent).bind fun _ =>
      (Primary.stepwise_liftAll rest parent).bind fun _ => Build.stepwise_pure _

theorem Definitions.stepwise_lift : ∀ (d : List (List Primary)) (parent : String),
    (Definitions.lift owner statement parent d).Stepwise
  | [], _ => by
    rw [Definitions.lift]
    exact Build.stepwise_pure _
  | alt :: rest, parent => by
    rw [Definitions.lift]
    exact (Primary.stepwise_liftAll alt parent).bind fun _ =>
      (Definitions.stepwise_lift rest parent).bind fun _ => Build.stepwise_pure _

end

end Lifting

theorem Build.stepwise_statement (raw : List Char) : (Build.statement raw).Stepwise := by
  unfold Build.statement
  rcases Statement.read raw with fault | s
  · exact stepwise_throw _
  · exact (stepwise_reserve _ _).bind fun _ => (Definitions.stepwise_lift _ _ _ _).bind fun _ =>
      (stepwise_define _).bind fun _ => stepwise_pure _

namespace Builder

variable {b b' b'' : Builder}

/-- What can be done with a builder. An operation that fails has no effect, except that lifting
keeps what it did before it failed. -/
inductive Operation where
  /-- Reserve a name; the statement is for the report. -/
  | reserve (name : String) (statement : Option String)
  /-- Define a rule, whatever it is. -/
  | define (r : Rule)
  /-- Make a fresh name. -/
  | freshName (parent : String)
  /-- Add a statement. -/
  | statement (raw : List Char)
  /-- Lift definitions out of a text, for a rule of which they become the alternatives. -/
  | definitions (body : List Char) (parent owner statement : String)
  /-- Make a grammar of what there is so far. -/
  | freeze

/-- The builder after an operation, which may have failed. -/
def perform (b : Builder) : Operation → Builder
  | .reserve name statement => ((Build.reserve name statement).run b).2
  | .define r => ((Build.define r).run b).2
  | .freshName parent => ((Build.freshName parent).run b).2
  | .statement raw => ((Build.statement raw).run b).2
  | .definitions body parent owner statement =>
    ((Definitions.lift owner statement parent (readDefinitions body)).run b).2
  | .freeze => b

/-- The builder after operations, any of which may have failed on the way. -/
def after (b : Builder) (ops : List Operation) : Builder := ops.foldl perform b

theorem reaches_perform (b : Builder) (op : Operation) : b.Reaches (b.perform op) := by
  cases op with
  | reserve name statement => exact Build.stepwise_reserve name statement b
  | define r => exact Build.stepwise_define r b
  | freshName parent => exact Build.stepwise_freshName parent b
  | statement raw => exact Build.stepwise_statement raw b
  | definitions body parent owner statement => exact Definitions.stepwise_lift owner statement _ _ b
  | freeze => exact .refl

/-- Every use of a builder is made of steps, so what every step preserves holds at every point of a
session. -/
theorem reaches_after (b : Builder) (ops : List Operation) : b.Reaches (b.after ops) := by
  induction ops generalizing b with
  | nil => exact .refl
  | cons op ops ih => exact (b.reaches_perform op).trans (ih (b.perform op))

/-! ### What holds at every point -/

/-- What holds of a builder at every point of a session, and is preserved by every step. -/
structure Sound (b : Builder) : Prop where
  /-- No name is reserved twice. -/
  nodup_order : b.order.Nodup
  /-- A rule stands under its own name. -/
  name_eq : ∀ {name : String} {r : Rule}, (name, some r) ∈ b.slots → r.name = name
  /-- No fresh name has been made twice, be it for one rule or for two. -/
  nodup_taken : b.taken.Nodup
  /-- The numbers of the fresh names for a rule do not exceed its counter. -/
  le_counter : ∀ {parent : String} {k : Nat}, (parent, k) ∈ b.counters → k ≤ b.counter parent

theorem sound_empty (declared : List String) : (empty declared).Sound :=
  ⟨List.nodup_nil, nofun, List.nodup_nil, nofun⟩

/-- A fresh name has not been made before: its number is greater than those made for the rule, and
for other rules no number gives the same name. -/
theorem Sound.freshName_notMem_taken (h : b.Sound) (parent : String) :
    (b.freshName parent).1 ∉ b.taken := by
  intro hmem
  obtain ⟨⟨parent', k⟩, hentry, hname⟩ := List.mem_map.mp hmem
  obtain ⟨rfl, rfl⟩ := liftedName_inj hname
  have hle := h.le_counter hentry
  have hlt := b.counter_lt_freshNumber parent'
  exact absurd hle (Nat.not_le_of_lt hlt)

/-- Defining a rule leaves the names as they are. -/
theorem map_fst_define (r : Rule) (slots : List (String × Option Rule)) :
    (slots.map fun (name, rule) => if name = r.name then (name, some r) else (name, rule)).map (·.1)
      = slots.map (·.1) := by
  rw [List.map_map]
  refine List.map_congr_left fun slot _ => ?_
  simp only [Function.comp_apply]
  split <;> rfl

/-- **A step preserves soundness.** A name is reserved only if it is new, a slot is filled only with
the rule of its name, and a fresh name is one that was never made. -/
theorem Step.sound (h : b.Step b') (hb : b.Sound) : b'.Sound := by
  cases h with
  | reserve name statement _ hreserve =>
    obtain ⟨hname, rfl⟩ := reserve_eq_ok_iff.mp hreserve
    refine ⟨nodup_order_reserve hb.nodup_order hname, fun {name' r} hmem => ?_, hb.nodup_taken,
      hb.le_counter⟩
    rcases List.mem_append.mp hmem with hmem | hmem
    · exact hb.name_eq hmem
    · -- the slot that is new has no rule
      cases List.mem_singleton.mp hmem
  -- the rule goes into the slot of its name, and the order of the names stays
  | define r _ hdefine =>
    obtain ⟨-, rfl⟩ := define_eq_ok_iff.mp hdefine
    refine ⟨?_, fun {name r'} hmem => ?_, hb.nodup_taken, hb.le_counter⟩
    · rw [order, map_fst_define]
      exact hb.nodup_order
    · obtain ⟨⟨name', rule⟩, hslot, heq⟩ := List.mem_map.mp hmem
      dsimp only at heq
      split_ifs at heq with hname
      · cases heq
        exact hname.symm
      · cases heq
        exact hb.name_eq hslot
  | freshName parent =>
    -- the number counted to is the one that was free, which is above all before it
    refine ⟨hb.nodup_order, hb.name_eq, List.nodup_cons.mpr
      ⟨hb.freshName_notMem_taken parent, hb.nodup_taken⟩, fun {parent' k} hmem => ?_⟩
    rw [counter_freshName]
    rcases List.mem_cons.mp hmem with heq | hmem
    · cases heq
      rw [if_pos rfl]
      exact Nat.le_refl _
    · have hle := hb.le_counter hmem
      split_ifs with hparent
      · subst hparent
        exact Nat.le_of_lt (Nat.lt_of_le_of_lt hle (b.counter_lt_freshNumber parent'))
      · exact hle

/-- Soundness is preserved by any number of steps. -/
theorem Reaches.sound (h : b.Reaches b') (hb : b.Sound) : b'.Sound := by
  induction h with
  | refl => exact hb
  | tail _ hstep ih => exact hstep.sound ih

/-! ### What is never taken back -/

/-- What a later builder keeps of an earlier one: names stay in their order, and rules as they are.
-/
structure Continues (b b' : Builder) : Prop where
  /-- The names that statements declare are the same. -/
  declared_eq : b'.declared = b.declared
  /-- Names are reserved after those reserved before. -/
  order_prefix : b.order <+: b'.order
  /-- A rule that is defined stays under its name. -/
  lookup_eq : ∀ {name : String} {r : Rule}, b.slots.lookup name = some (some r) →
    b'.slots.lookup name = some (some r)
  /-- Fresh names made before stay made. -/
  taken_suffix : b.taken <:+ b'.taken

namespace Continues

theorem refl (b : Builder) : b.Continues b := ⟨rfl, List.prefix_rfl, id, List.suffix_rfl⟩

theorem trans (h : b.Continues b') (h' : b'.Continues b'') : b.Continues b'' :=
  ⟨h'.declared_eq.trans h.declared_eq, h.order_prefix.trans h'.order_prefix,
    fun hlookup => h'.lookup_eq (h.lookup_eq hlookup), h.taken_suffix.trans h'.taken_suffix⟩

end Continues

/-- Looking a name up after a rule has been defined. -/
theorem lookup_map_define {r : Rule} {name : String} : ∀ {slots : List (String × Option Rule)},
    (slots.map fun (name, rule) => if name = r.name then (name, some r) else (name, rule)).lookup
      name = if name = r.name then (slots.lookup name).map fun _ => some r
        else slots.lookup name := by
  intro slots
  induction slots with
  | nil => split <;> rfl
  | cons slot slots ih =>
    obtain ⟨name', rule⟩ := slot
    -- the slot keeps its name whether it is the one filled or not
    have hslot : (if name' = r.name then (name', some r) else (name', rule))
        = (name', if name' = r.name then some r else rule) := by split <;> rfl
    rw [List.map_cons]
    dsimp only
    rw [hslot, List.lookup_cons, List.lookup_cons, ih]
    by_cases hname : name = name'
    · subst hname
      rw [BEq.rfl]
      dsimp only
      split <;> rfl
    · rw [beq_false_of_ne hname]

/-- A step keeps the order of names and the rules that are there. -/
theorem Step.continues (h : b.Step b') : b.Continues b' := by
  cases h with
  | reserve name statement _ hreserve =>
    obtain ⟨-, rfl⟩ := reserve_eq_ok_iff.mp hreserve
    refine ⟨rfl, ?_, fun {name' r} hlookup => ?_, List.suffix_rfl⟩
    · rw [order, order, List.map_append]
      exact List.prefix_append _ _
    · rw [List.lookup_append, hlookup, Option.some_or]
  | define r _ hdefine =>
    obtain ⟨hundefined, rfl⟩ := define_eq_ok_iff.mp hdefine
    refine ⟨rfl, ?_, fun {name r'} hlookup => ?_, List.suffix_rfl⟩
    · exact ⟨[], (List.append_nil _).trans (map_fst_define r b.slots).symm⟩
    · have hne : name ≠ r.name := by
        rintro rfl
        rw [hundefined] at hlookup
        cases hlookup
      rw [lookup_map_define, if_neg hne, hlookup]
  | freshName parent => exact ⟨rfl, List.prefix_rfl, id, List.suffix_cons _ _⟩

theorem Reaches.continues (h : b.Reaches b') : b.Continues b' := by
  induction h with
  | refl => exact .refl b
  | tail _ hstep ih => exact ih.trans hstep.continues

/-! ### Sessions -/

theorem lookup_eq_none_iff {name : String} : b.slots.lookup name = none ↔ name ∉ b.order := by
  rw [List.lookup_eq_none_iff, order, List.mem_map, not_exists]
  refine forall_congr' fun slot => ?_
  rw [bne_iff_ne, not_and]
  exact imp_congr_right fun _ => ne_comm

theorem mem_of_lookup_eq_some {name : String} {rule : Option Rule}
    (h : b.slots.lookup name = some rule) : (name, rule) ∈ b.slots := by
  obtain ⟨before, after, heq, -⟩ := List.lookup_eq_some_iff.mp h
  rw [heq]
  exact List.mem_append_right _ List.mem_cons_self

/-- **The names of a builder at every point of a session.** No name is reserved twice, and whether
one is reserved, found, or refused a second time comes to the same. Later the order only grows at
its end, rules stay as they are, and fresh names are different from all that were made, declared or
reserved before. -/
theorem session_sound (declared : List String) (ops more : List Operation) :
    ((empty declared).Reaches ((empty declared).after ops) ∧
      ((empty declared).after ops).Reaches ((empty declared).after (ops ++ more))) ∧
    ∀ b b' : Builder, (empty declared).Reaches b → b.Reaches b' →
      b.order.Nodup ∧
      (∀ name, name ∈ b.order ↔ (b.slots.lookup name).isSome) ∧
      (∀ name statement, name ∈ b.order ↔ ∃ fault, b.reserve name statement = .error fault) ∧
      (∀ name r, b.slots.lookup name = some (some r) → r.name = name) ∧
      b.order <+: b'.order ∧
      (∀ name r, b.slots.lookup name = some (some r) → b'.slots.lookup name = some (some r)) ∧
      b.taken.Nodup ∧ b.taken <:+ b'.taken ∧
      ∀ parent, (b.freshName parent).2.taken = (b.freshName parent).1 :: b.taken ∧
        (b.freshName parent).1 ∉ b.taken ∧ (b.freshName parent).1 ∉ declared ∧
        (b.freshName parent).1 ∉ b.order := by
  have hsession := (empty declared).reaches_after ops
  have hmore := ((empty declared).after ops).reaches_after more
  -- what has been reached and what is reached later are both runs from the start
  refine ⟨⟨hsession, ?_⟩, fun b b' hb hb' => ?_⟩
  · unfold after at hmore ⊢
    rwa [List.foldl_append]
  · have hsound : b.Sound := hb.sound (sound_empty declared)
    have hdeclared : b.declared = declared := hb.continues.declared_eq
    have hlater : b.Continues b' := hb'.continues
    refine ⟨hsound.nodup_order, fun name => ?_, fun name statement => ?_,
      fun name r h => hsound.name_eq (mem_of_lookup_eq_some h), hlater.order_prefix,
      fun name r => hlater.lookup_eq, hsound.nodup_taken, hlater.taken_suffix,
      fun parent => ⟨rfl, hsound.freshName_notMem_taken parent, ?_,
        b.freshName_notMem_order parent⟩⟩
    · rw [← Option.ne_none_iff_isSome, ne_eq, lookup_eq_none_iff, not_not]
    · exact exists_reserve_eq_error_iff.symm
    · exact hdeclared ▸ b.freshName_notMem_declared parent

end Builder

end AnyEngine

namespace Builder

attribute [local instance] Pattern.Engine.verbatim

/-- A session in which the first fresh name is declared and the third reserved by hand. -/
def freshSession : List Operation := [.freshName "X", .reserve "XSubDef3" none, .freshName "X"]

theorem session_sound_freshSession :
    ((empty ["XSubDef1"]).after freshSession).taken = ["XSubDef4", "XSubDef2"] ∧
      ((empty ["XSubDef1"]).after freshSession).order.Nodup ∧
      (((empty ["XSubDef1"]).after freshSession).freshName "X").1 ∉ ["XSubDef4", "XSubDef2"] := by
  obtain ⟨⟨hb, hmore⟩, hall⟩ := session_sound ["XSubDef1"] freshSession [.freshName "X"]
  obtain ⟨hnodup, -, -, -, -, -, -, -, hfresh⟩ := hall _ _ hb hmore
  have htaken : ((empty ["XSubDef1"]).after freshSession).taken = ["XSubDef4", "XSubDef2"] := by
    decide +kernel
  exact ⟨htaken, hnodup, htaken ▸ (hfresh "X").2.1⟩

end Builder
end Ebnf
