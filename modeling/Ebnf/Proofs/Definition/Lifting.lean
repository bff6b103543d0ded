import Ebnf.Definition.Lifting
import Ebnf.Proofs.Grammar.Building

/-!
# What lifting makes of definitions

Lifting leaves an atom for every primary and makes a rule of every bracket.  Which rules it makes
is stated here without a builder; only the numbers in their names are left open.  A run of the
builder adds exactly such rules behind those it has, under new names, and it succeeds if and only if
everything in the definitions can be read.

## Main definitions

* `Primary.Readable`, `Definitions.Readable` — nothing in what is written is unreadable.
* `Primary.references`, `Definitions.references` — the names that what is written refers to.
* `Rule.ofBracket` — the rule made of a bracket.
* `Primary.LiftsTo`, `Definitions.LiftTo` — the atoms that are left and the rules that are made.
* `Builder.Extends` — a builder with further rules, and nothing else that could be told from names.

## Main results

* `Definitions.run_lift` — **readable definitions are lifted as `Definitions.LiftTo` says.**
* `Definitions.readable_of_run_lift` — only readable definitions are lifted.
-/

namespace Ebnf

open Source (unescape)
open Builder (liftedName)

variable [Pattern.Engine]

/-! ### What is written -/

mutual

/-- No part of the primary is unreadable, at whatever depth of brackets. -/
def Primary.Readable : Primary → Prop
  | .terminal _ | .pattern _ | .name _ => True
  | .bracketed _ inner => Definitions.Readable inner
  | .unreadable _ => False

/-- No part of the primaries is unreadable. -/
def Primary.AllReadable : List Primary → Prop
  | [] => True
  | p :: rest => p.Readable ∧ Primary.AllReadable rest

/-- No part of the definitions is unreadable, at whatever depth of brackets. -/
def Definitions.Readable : List (List Primary) → Prop
  | [] => True
  | alt :: rest => Primary.AllReadable alt ∧ Definitions.Readable rest

end

theorem Primary.readable_of_mem : ∀ {ps : List Primary}, Primary.AllReadable ps →
    ∀ p ∈ ps, p.Readable := by
  intro ps
  induction ps with
  | nil => simp
  | cons p rest ih =>
    intro h q hq
    rcases List.mem_cons.mp hq with rfl | hq
    · exact h.1
    · exact ih h.2 q hq

theorem Definitions.readable_of_mem : ∀ {d : List (List Primary)}, Definitions.Readable d →
    ∀ alt ∈ d, Primary.AllReadable alt := by
  intro d
  induction d with
  | nil => simp
  | cons alt rest ih =>
    intro h alt' halt
    rcases List.mem_cons.mp halt with rfl | halt
    · exact h.1
    · exact ih h.2 alt' halt

mutual

/-- The names that a primary refers to, those in brackets included. -/
def Primary.references : Primary → List String
  | .name name => [String.ofList name]
  | .bracketed _ inner => Definitions.references inner
  | .terminal _ | .pattern _ | .unreadable _ => []

/-- The names that primaries refer to. -/
def Primary.allReferences : List Primary → List String
  | [] => []
  | p :: rest => p.references ++ Primary.allReferences rest

/-- The names that definitions refer to, in the order in which they are written. -/
def Definitions.references : List (List Primary) → List String
  | [] => []
  | alt :: rest => Primary.allReferences alt ++ Definitions.references rest

end

/-! ### Atoms and rules -/

/-- The rule made of a bracket in a statement that defines `owner`. Its source is its name with the
text in the bracket. -/
def Rule.ofBracket (owner name : String) (bracket : Bracket) (inner : Definitions)
    (alts : List Alternative) : Rule :=
  { name, alts, source := name ++ "=" ++ String.ofList (Definitions.chars inner),
    owner := some owner, kind := some bracket.word }

mutual

/-- `LiftsTo owner parent p atom rules` says that the primary `p` of the rule `parent` leaves the
atom and that `rules` are made of the brackets in it, in the order in which those begin. -/
inductive Primary.LiftsTo (owner : String) : String → Primary → Atom → List Rule → Prop
  | terminal (parent body) :
    Primary.LiftsTo owner parent (.terminal body) (.terminal (String.ofList (unescape body))) []
  | pattern (parent p) : Primary.LiftsTo owner parent (.pattern p) (.pattern p) []
  | name (parent name) :
    Primary.LiftsTo owner parent (.name name) (.reference (String.ofList name)) []
  | bracketed {parent bracket k inner alts below}
    (h : Definitions.LiftTo owner (liftedName parent k) inner alts below) :
    Primary.LiftsTo owner parent (.bracketed bracket inner)
      (.lifted bracket (liftedName parent k))
      (Rule.ofBracket owner (liftedName parent k) bracket inner alts :: below)

/-- The same for the primaries of an alternative. -/
inductive Primary.AllLiftTo (owner : String) :
    String → List Primary → Alternative → List Rule → Prop
  | nil (parent) : Primary.AllLiftTo owner parent [] [] []
  | cons {parent p atom rules rest atoms others}
    (head : Primary.LiftsTo owner parent p atom rules)
    (tail : Primary.AllLiftTo owner parent rest atoms others) :
    Primary.AllLiftTo owner parent (p :: rest) (atom :: atoms) (rules ++ others)

/-- The same for the alternatives of definitions: what is left of each, and the rules of all of them
in order. -/
inductive Definitions.LiftTo (owner : String) :
    String → List (List Primary) → List Alternative → List Rule → Prop
  | nil (parent) : Definitions.LiftTo owner parent [] [] []
  | cons {parent alt atoms rules rest alts others}
    (head : Primary.AllLiftTo owner parent alt atoms rules)
    (tail : Definitions.LiftTo owner parent rest alts others) :
    Definitions.LiftTo owner parent (alt :: rest) (atoms :: alts) (rules ++ others)

end

section Readable

variable {owner : String}

mutual

theorem Primary.LiftsTo.readable : ∀ {parent p atom rules},
    Primary.LiftsTo owner parent p atom rules → p.Readable
  | _, _, _, _, .terminal _ _ => trivial
  | _, _, _, _, .pattern _ _ => trivial
  | _, _, _, _, .name _ _ => trivial
  | _, _, _, _, .bracketed h => h.readable

theorem Primary.AllLiftTo.readable : ∀ {parent ps atoms rules},
    Primary.AllLiftTo owner parent ps atoms rules → Primary.AllReadable ps
  | _, _, _, _, .nil _ => trivial
  | _, _, _, _, .cons hp hrest => ⟨hp.readable, hrest.readable⟩

theorem Definitions.LiftTo.readable : ∀ {parent d alts rules},
    Definitions.LiftTo owner parent d alts rules → Definitions.Readable d
  | _, _, _, _, .nil _ => trivial
  | _, _, _, _, .cons halt hrest => ⟨halt.readable, hrest.readable⟩

end

end Readable

/-! ### Builders with further rules -/

/-- `b'` has the slots of `b` and after them those of the rules, all under different names. -/
structure Builder.Extends (b : Builder) (rules : List Rule) (b' : Builder) : Prop where
  declared_eq : b'.declared = b.declared
  slots_eq : b'.slots = b.slots ++ rules.map Rule.slot
  nodup : b'.order.Nodup

namespace Builder.Extends

variable {b b' b'' : Builder} {rules others : List Rule}

theorem refl (hb : b.order.Nodup) : b.Extends [] b := ⟨rfl, by simp, hb⟩

theorem trans (h : b.Extends rules b') (h' : b'.Extends others b'') :
    b.Extends (rules ++ others) b'' :=
  ⟨h'.declared_eq.trans h.declared_eq,
    by rw [h'.slots_eq, h.slots_eq, List.map_append, List.append_assoc], h'.nodup⟩

theorem order_eq (h : b.Extends rules b') : b'.order = b.order ++ rules.map (·.name) := by
  rw [order, h.slots_eq, List.map_append, Rule.map_fst_slot, order]

/-- A slot reserved before other rules were added is filled when its rule is defined. -/
theorem run_define {r : Rule} (hfresh : r.name ∉ b.order)
    (h : Builder.Extends { b with slots := b.slots ++ [(r.name, none)] } rules b') :
    ∃ s, (Build.define r).run b' = (.ok (), s) ∧ b.Extends (r :: rules) s := by
  have hslots : b'.slots = b.slots ++ (r.name, none) :: rules.map Rule.slot := by
    rw [h.slots_eq, List.append_assoc, List.singleton_append]
  have hnodup : (b.order ++ r.name :: rules.map (·.name)).Nodup := by
    have hn := h.nodup
    rw [order, hslots, List.map_append, List.map_cons, Rule.map_fst_slot] at hn
    exact hn
  have hafter : r.name ∉ (rules.map Rule.slot).map (·.1) := by
    rw [Rule.map_fst_slot]
    exact (List.nodup_cons.mp (List.nodup_append.mp hnodup).2.1).1
  refine ⟨_, Build.run_define hslots hfresh hafter, h.declared_eq, ?_, ?_⟩
  · rw [List.map_cons]
  · rw [order, List.map_append, List.map_cons, Rule.map_fst_slot]
    exact hnodup

end Builder.Extends

/-! ### Steps that add rules -/

/-- The step succeeds and adds rules, of which the lifted ones have names that no statement
declares; its result and the rules are as stated. -/
def Build.Adds {α : Type} (x : Build α) (b : Builder) (stated : α → List Rule → Prop) : Prop :=
  ∃ a rules b', x.run b = (.ok a, b') ∧ b.Extends rules b' ∧
    (∀ r ∈ rules, r.isLifted = true → r.name ∉ b.declared) ∧ stated a rules

namespace Build.Adds

variable {α β : Type} {b : Builder}

theorem pure {a : α} {stated : α → List Rule → Prop} (hb : b.order.Nodup) (h : stated a []) :
    Build.Adds (Pure.pure a) b stated :=
  ⟨a, [], b, Build.run_pure a b, .refl hb, by simp, h⟩

/-- What a second step adds stands after what the first one did. -/
theorem bind {x : Build α} {f : α → Build β} {first : α → List Rule → Prop}
    {second : α → β → List Rule → Prop} (hx : x.Adds b first)
    (hf : ∀ a s, s.order.Nodup → (f a).Adds s (second a)) :
    (x >>= f).Adds b fun c rules =>
      ∃ a before after, rules = before ++ after ∧ first a before ∧ second a c after := by
  obtain ⟨a, before, s, hrun, hext, hfresh, ha⟩ := hx
  obtain ⟨c, after, s', hrun', hext', hfresh', hc⟩ := hf a s hext.nodup
  refine ⟨c, before ++ after, s', ?_, hext.trans hext', ?_, a, before, after, rfl, ha, hc⟩
  · rw [Build.run_bind hrun, hrun']
  · intro r hr
    rcases List.mem_append.mp hr with hr | hr
    · exact hfresh r hr
    · rw [← hext.declared_eq]
      exact hfresh' r hr

theorem mono {x : Build α} {first second : α → List Rule → Prop} (hx : x.Adds b first)
    (h : ∀ a rules, first a rules → second a rules) : x.Adds b second := by
  obtain ⟨a, rules, s, hrun, hext, hfresh, ha⟩ := hx
  exact ⟨a, rules, s, hrun, hext, hfresh, h a rules ha⟩

end Build.Adds

/-! ### Runs of lifting -/

variable {owner statement : String}

mutual

/-- A primary that is readable can be lifted in any builder without repeated names, and lifting adds
the rules that the relation tells. -/
theorem Primary.run_lift : ∀ (p : Primary), p.Readable → ∀ (parent : String) (b : Builder),
    b.order.Nodup → (p.lift owner statement parent).Adds b (p.LiftsTo owner parent)
  -- an atom that is no bracket adds no rule
  | .terminal body, _, parent, _, hb => by
    rw [Primary.lift]
    exact .pure hb (.terminal parent body)
  | .pattern p, _, parent, _, hb => by
    rw [Primary.lift]
    exact .pure hb (.pattern parent p)
  | .name name, _, parent, _, hb => by
    rw [Primary.lift]
    exact .pure hb (.name parent name)
  | .unreadable _, h, _, _, _ => h.elim
  | .bracketed bracket inner, h, parent, b, hb => by
    rw [Primary.lift]
    -- the name is fresh and is reserved before the rules within the bracket are added
    let name := liftedName parent (b.freshNumber parent)
    let b₁ : Builder := (b.freshName parent).2
    let b₂ : Builder := { b₁ with slots := b.slots ++ [(name, none)] }
    have hfresh : name ∉ b₁.order := b.freshName_notMem_order parent
    have hb₂ : b₂.order.Nodup := Builder.nodup_order_reserve (b := b₁) hb hfresh
    obtain ⟨alts, below, b₃, hrun, hext, hbelow, halts⟩ :=
      Definitions.run_lift inner h name b₂ hb₂
    let rule := Rule.ofBracket owner name bracket inner alts
    obtain ⟨b₄, hdefine, hext'⟩ := Builder.Extends.run_define (b := b₁) (r := rule) hfresh hext
    refine ⟨.lifted bracket name, rule :: below, b₄, ?_, ?_, ?_, .bracketed halts⟩
    · -- the run: the name is taken, the inside is lifted, and the rule is put into its slot
      have hname : (Build.freshName parent).run b = (.ok name, b₁) := Build.run_freshName parent b
      rw [Build.run_bind hname, Build.run_bind (Build.run_reserve hfresh _)]
      refine (Build.run_bind hrun _).trans ?_
      exact (Build.run_bind hdefine _).trans (Build.run_pure _ b₄)
    · exact ⟨hext'.declared_eq, hext'.slots_eq, hext'.nodup⟩
    · -- no lifted rule has the name of a declared one
      intro r hr
      rcases List.mem_cons.mp hr with rfl | hr
      · exact fun _ => b.freshName_notMem_declared parent
      · exact hbelow r hr

theorem Primary.run_liftAll : ∀ (ps : List Primary), Primary.AllReadable ps →
    ∀ (parent : String) (b : Builder), b.order.Nodup →
      (Primary.liftAll owner statement parent ps).Adds b (Primary.AllLiftTo owner parent ps)
  | [], _, parent, _, hb => by
    rw [Primary.liftAll]
    exact .pure hb (.nil parent)
  | p :: rest, h, parent, b, hb => by
    rw [Primary.liftAll]
    have hsteps := (Primary.run_lift p h.1 parent b hb).bind fun atom s hs =>
      (Primary.run_liftAll rest h.2 parent s hs).bind fun atoms s' hs' =>
        @Build.Adds.pure _ _ s' (atom :: atoms) (fun c rs => c = atom :: atoms ∧ rs = [])
          hs' ⟨rfl, rfl⟩
    refine hsteps.mono ?_
    rintro _ _ ⟨atom, rules, _, rfl, hhead, atoms, others, _, rfl, htail, rfl, rfl⟩
    rw [List.append_nil]
    exact .cons hhead htail

/-- Readable definitions can be lifted in any builder without repeated names. The rules added are
those of the brackets, each made of what stands in it. -/
theorem Definitions.run_lift : ∀ (d : List (List Primary)), Definitions.Readable d →
    ∀ (parent : String) (b : Builder), b.order.Nodup →
      (Definitions.lift owner statement parent d).Adds b (Definitions.LiftTo owner parent d)
  | [], _, parent, _, hb => by
    rw [Definitions.lift]
    exact .pure hb (.nil parent)
  | alt :: rest, h, parent, b, hb => by
    rw [Definitions.lift]
    have hsteps := (Primary.run_liftAll alt h.1 parent b hb).bind fun atoms s hs =>
      (Definitions.run_lift rest h.2 parent s hs).bind fun alts s' hs' =>
        @Build.Adds.pure _ _ s' (atoms :: alts) (fun c rs => c = atoms :: alts ∧ rs = [])
          hs' ⟨rfl, rfl⟩
    refine hsteps.mono ?_
    rintro _ _ ⟨atoms, rules, _, rfl, hhead, alts, others, _, rfl, htail, rfl, rfl⟩
    rw [List.append_nil]
    exact .cons hhead htail

end

mutual

theorem Primary.readable_of_run_lift : ∀ {p : Primary} {parent : String} {b b' : Builder}
    {atom : Atom}, (p.lift owner statement parent).run b = (.ok atom, b') → p.Readable
  | .terminal _, _, _, _, _, _ => trivial
  | .pattern _, _, _, _, _, _ => trivial
  | .name _, _, _, _, _, _ => trivial
  | .unreadable _, _, _, _, _, h => by
    rw [Primary.lift, Build.run_throw] at h
    cases h
  | .bracketed _ _, _, _, _, _, h => by
    rw [Primary.lift] at h
    obtain ⟨_, _, -, h⟩ := Build.run_bind_eq_ok h
    obtain ⟨_, _, -, h⟩ := Build.run_bind_eq_ok h
    obtain ⟨_, _, hinner, -⟩ := Build.run_bind_eq_ok h
    exact Definitions.readable_of_run_lift hinner

theorem Primary.allReadable_of_run_liftAll : ∀ {ps : List Primary} {parent : String}
    {b b' : Builder} {atoms : Alternative},
    (Primary.liftAll owner statement parent ps).run b = (.ok atoms, b') → Primary.AllReadable ps
  | [], _, _, _, _, _ => trivial
  | _ :: _, _, _, _, _, h => by
    rw [Primary.liftAll] at h
    obtain ⟨_, _, hhead, h⟩ := Build.run_bind_eq_ok h
    obtain ⟨_, _, htail, -⟩ := Build.run_bind_eq_ok h
    exact ⟨Primary.readable_of_run_lift hhead, Primary.allReadable_of_run_liftAll htail⟩

/-- Only readable definitions can be lifted. -/
theorem Definitions.readable_of_run_lift : ∀ {d : List (List Primary)} {parent : String}
    {b b' : Builder} {alts : List Alternative},
    (Definitions.lift owner statement parent d).run b = (.ok alts, b') → Definitions.Readable d
  | [], _, _, _, _, _ => trivial
  | _ :: _, _, _, _, _, h => by
    rw [Definitions.lift] at h
    obtain ⟨_, _, hhead, h⟩ := Build.run_bind_eq_ok h
    obtain ⟨_, _, htail, -⟩ := Build.run_bind_eq_ok h
    exact ⟨Primary.allReadable_of_run_liftAll hhead, Definitions.readable_of_run_lift htail⟩

end

end Ebnf
