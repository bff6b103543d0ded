import Ebnf.Proofs.Definition.Numbering
import Ebnf.Proofs.Grammar.Sessions

/-!
# Declaring a name that is reserved

A builder is told which names the statements declare in order to keep those from brackets, and it
keeps reserved names from them as well.  So once a name is reserved it makes no difference whether
it is declared too.  A statement reserves its name first of all, and may be added to a builder that
does not know of its name as to one that does.

## Main definitions

* `Builder.declare` — a builder for which one more name is declared.
* `Build.Overlooks` — a step that does not depend on whether a reserved name is declared.

## Main results

* `Builder.freshNumber_declare` — a reserved name is not taken a second time, declared or not.
* `Definitions.overlooks_lift` — lifting overlooks whether a reserved name is declared.
* `Build.run_statement_declare` — **a statement does not depend on whether its own name is
  declared.**
-/

namespace Ebnf

variable [Pattern.Engine]

namespace Builder

variable {b : Builder} {name : String}

/-- The builder for which one more name is declared. -/
def declare (b : Builder) (name : String) : Builder := { b with declared := name :: b.declared }

theorem slots_declare (b : Builder) (name : String) : (b.declare name).slots = b.slots :=
  rfl

theorem declare_empty (declared : List String) (name : String) :
    (empty declared).declare name = empty (name :: declared) :=
  rfl

/-- A reserved name is not free, so declaring it leaves the same names free. -/
theorem isFree_declare (h : name ∈ b.order) (other : String) :
    (b.declare name).isFree other = b.isFree other := by
  rw [Bool.eq_iff_iff, isFree_eq_true_iff, isFree_eq_true_iff]
  refine and_congr_right fun hother => not_congr ?_
  have hne : other ≠ name := by
    rintro rfl
    exact hother h
  exact List.mem_cons.trans (or_iff_right hne)

/-- A name that is reserved may as well be declared too: a fresh name avoids it either way. -/
theorem freshNumber_declare (h : name ∈ b.order) (parent : String) :
    (b.declare name).freshNumber parent = b.freshNumber parent :=
  freshNumber_congr rfl fun _ _ => isFree_declare h _

theorem freshName_declare (h : name ∈ b.order) (parent : String) :
    (b.declare name).freshName parent
      = ((b.freshName parent).1, (b.freshName parent).2.declare name) := by
  have hnumber := freshNumber_declare h parent
  rw [freshNumber, freshNumber] at hnumber
  rw [freshName, freshName]
  dsimp only
  rw [hnumber]
  rfl

theorem reserve_declare (b : Builder) (name other : String) (statement : Option String) :
    (b.declare name).reserve other statement
      = (b.reserve other statement).map fun s => s.declare name := by
  by_cases h : other ∈ b.order
  · rw [reserve_of_mem h, reserve_of_mem (b := b.declare name) h]
    rfl
  · rw [reserve_eq_ok_iff.mpr ⟨h, rfl⟩]
    exact reserve_eq_ok_iff.mpr ⟨h, rfl⟩

theorem define_declare (b : Builder) (name : String) (r : Rule) :
    (b.declare name).define r = (b.define r).map fun s => s.declare name := by
  rw [define, define, slots_declare]
  rcases b.slots.lookup r.name with _ | _ | _
  · rfl
  · rfl
  · rfl

end Builder

/-! ### Steps of building -/

namespace Build

variable {α β : Type} {name : String}

/-- It makes no difference to the step whether a reserved name is declared, and the name stays
reserved. -/
def Overlooks (name : String) (x : Build α) : Prop :=
  ∀ b : Builder, name ∈ b.order →
    x.run (b.declare name) = ((x.run b).1, (x.run b).2.declare name) ∧ name ∈ (x.run b).2.order

theorem overlooks_pure (a : α) : Overlooks name (pure a : Build α) := fun _ h => ⟨rfl, h⟩

theorem overlooks_throw (fault : BuildFault) : Overlooks name (throw fault : Build α) :=
  fun _ h => ⟨rfl, h⟩

theorem Overlooks.bind {x : Build α} {f : α → Build β} (hx : x.Overlooks name)
    (hf : ∀ a, (f a).Overlooks name) : Overlooks name (x >>= f) := by
  intro b hb
  obtain ⟨hfirst, hs⟩ := hx b hb
  rcases hrun : x.run b with ⟨fault | a, s⟩
  · rw [hrun] at hfirst hs
    rw [run_bind_of_error hfirst, run_bind_of_error hrun]
    exact ⟨rfl, hs⟩
  · rw [hrun] at hfirst hs
    rw [run_bind hfirst, run_bind hrun]
    exact hf a s hs

/-- A step that never gives up a name keeps those that are reserved. -/
theorem Stepwise.mem_order {x : Build α} (hx : x.Stepwise) {b : Builder} (h : name ∈ b.order) :
    name ∈ (x.run b).2.order := by
  have hcontinues := (hx b).continues
  exact hcontinues.order_prefix.subset h

theorem run_reserve_declare (b : Builder) (name other : String) (statement : Option String) :
    (reserve other statement).run (b.declare name)
      = (((reserve other statement).run b).1,
        ((reserve other statement).run b).2.declare name) := by
  rw [reserve, run_bind (run_get _), run_bind (run_get b), Builder.reserve_declare]
  rcases b.reserve other statement with fault | s
  · rfl
  · rfl

theorem overlooks_reserve (other : String) (statement : Option String) :
    Overlooks name (reserve other statement) :=
  fun b h => ⟨run_reserve_declare b name other statement,
    (stepwise_reserve other statement).mem_order h⟩

theorem overlooks_define (r : Rule) : Overlooks name (define r) := by
  refine fun b h => ⟨?_, (stepwise_define r).mem_order h⟩
  rw [define, run_bind (run_get _), run_bind (run_get b), Builder.define_declare]
  rcases b.define r with fault | s
  · rfl
  · rfl

theorem overlooks_freshName (parent : String) : Overlooks name (freshName parent) := by
  refine fun b h => ⟨?_, (stepwise_freshName parent).mem_order h⟩
  rw [run_freshName, run_freshName, Builder.freshName_declare h]

end Build

/-! ### Lifting -/

section

variable {name : String} (owner statement : String)

mutual

theorem Primary.overlooks_lift : ∀ (p : Primary) (parent : String),
    (p.lift owner statement parent).Overlooks name
  | .terminal _, _ | .pattern _, _ | .name _, _ => by
    rw [Primary.lift]
    exact Build.overlooks_pure _
  | .unreadable _, _ => by
    rw [Primary.lift]
    exact Build.overlooks_throw _
  | .bracketed _ inner, parent => by
    rw [Primary.lift]
    exact (Build.overlooks_freshName parent).bind fun fresh =>
      (Build.overlooks_reserve fresh _).bind fun _ =>
        (Definitions.overlooks_lift inner fresh).bind fun _ =>
          (Build.overlooks_define _).bind fun _ => Build.overlooks_pure _

theorem Primary.overlooks_liftAll : ∀ (ps : List Primary) (parent : String),
    (Primary.liftAll owner statement parent ps).Overlooks name
  | [], _ => by
    rw [Primary.liftAll]
    exact Build.overlooks_pure _
  | p :: rest, parent => by
    rw [Primary.liftAll]
    exact (Primary.overlooks_lift p parent).bind fun _ =>
      (Primary.overlooks_liftAll rest parent).bind fun _ => Build.overlooks_pure _

/-- Lifting overlooks whether a reserved name is declared, since no name that it makes depends on
that. -/
theorem Definitions.overlooks_lift : ∀ (d : List (List Primary)) (parent : String),
    (Definitions.lift owner statement parent d).Overlooks name
  | [], _ => by
    rw [Definitions.lift]
    exact Build.overlooks_pure _
  | alt :: rest, parent => by
    rw [Definitions.lift]
    exact (Primary.overlooks_liftAll alt parent).bind fun _ =>
      (Definitions.overlooks_lift rest parent).bind fun _ => Build.overlooks_pure _

end

end

/-- **A statement does not depend on whether its own name is declared**: it reserves the name before
anything else, or fails because the name is reserved already. -/
theorem Build.run_statement_declare {raw : List Char} {s : Statement}
    (hread : Statement.read raw = .ok s) (b : Builder) :
    (Build.statement raw).run (b.declare s.name)
      = (((Build.statement raw).run b).1, ((Build.statement raw).run b).2.declare s.name) := by
  have hrest : ∀ u : Unit, Overlooks s.name (do
      let alts ← Definitions.lift s.name s.text s.name s.definitions
      define { name := s.name, alts, source := s.text, owner := none, kind := none }
      return s.name) := fun _ =>
    (Definitions.overlooks_lift _ _ _ _).bind fun _ =>
      (overlooks_define _).bind fun _ => overlooks_pure _
  rw [Build.statement, hread]
  dsimp only
  have hreserve := run_reserve_declare b s.name s.name (some s.text)
  by_cases h : s.name ∈ b.order
  · rw [run_reserve_of_mem h] at hreserve
    rw [run_bind_of_error hreserve, run_bind_of_error (run_reserve_of_mem h _)]
  · rw [run_reserve h] at hreserve
    rw [run_bind hreserve, run_bind (run_reserve h _)]
    exact (hrest () _ (Builder.mem_order_reserve.mpr (Or.inr rfl))).1

end Ebnf
