import Ebnf.Proofs.Grammar.FreshNames

/-!
# Runs of a builder

What each step of building does to the builder at hand, and how steps follow one another.  A rule
is defined in two steps, and between them other rules are added; what is left of all this is that
the rules stand in the order of their reservation.

## Main definitions

* `Rule.slot` — the slot of a rule that has been defined.

## Main results

* `Builder.reserve_eq_ok_iff`, `Builder.define_eq_ok_iff` — when a rule can be added, and to what.
* `Build.run_bind`, `Build.run_bind_eq_ok`, `Build.run_bind_eq_error` — a step after a step.
* `Build.run_reserve`, `Build.run_freshName`, `Build.run_define` — the single steps.
-/

namespace Ebnf

variable [Pattern.Engine]

/-- The slot of a rule that has been defined. -/
def Rule.slot (r : Rule) : String × Option Rule := (r.name, some r)

theorem Rule.map_fst_slot (rules : List Rule) :
    (rules.map slot).map (·.1) = rules.map (·.name) := by
  rw [List.map_map]
  rfl

namespace Builder

/-! ### Adding a rule -/

/-- A name can be reserved exactly if it is not reserved, and then it gets the last slot. -/
theorem reserve_eq_ok_iff {b b' : Builder} {name : String} {statement : Option String} :
    b.reserve name statement = .ok b' ↔
      name ∉ b.order ∧ b' = { b with slots := b.slots ++ [(name, none)] } := by
  unfold reserve contains
  by_cases h : name ∈ b.order
  · simp [h]
  · simp [h, eq_comm]

theorem reserve_of_mem {b : Builder} {name : String} (h : name ∈ b.order)
    (statement : Option String) :
    b.reserve name statement = .error (.grammar ⟨.duplicateIdentifier name, statement⟩) := by
  simp [reserve, contains, h]

theorem exists_reserve_eq_error_iff {b : Builder} {name : String} {statement : Option String} :
    (∃ fault, b.reserve name statement = .error fault) ↔ name ∈ b.order := by
  constructor
  · rintro ⟨fault, hfault⟩
    by_contra hname
    rw [reserve_eq_ok_iff.mpr ⟨hname, rfl⟩] at hfault
    cases hfault
  · intro hname
    exact ⟨_, reserve_of_mem hname statement⟩

/-- A rule can be defined exactly if its name is reserved and has no rule, and then the slot gets
it. -/
theorem define_eq_ok_iff {b b' : Builder} {r : Rule} :
    b.define r = .ok b' ↔
      b.slots.lookup r.name = some none ∧ b' = { b with slots := b.slots.map fun (name, rule) =>
        if name = r.name then (name, some r) else (name, rule) } := by
  unfold define
  rcases b.slots.lookup r.name with _ | _ | r'
  · simp
  · simp [eq_comm]
  · simp

/-- Names stay different when a new one is reserved. -/
theorem nodup_order_reserve {b : Builder} (hb : b.order.Nodup) {name : String}
    (hname : name ∉ b.order) :
    (order { b with slots := b.slots ++ [(name, none)] }).Nodup := by
  rw [order, List.map_append, List.map_singleton, List.nodup_append]
  refine ⟨hb, List.nodup_singleton name, fun n hn m hm hnm => hname ?_⟩
  have hmname : m = name := List.mem_singleton.mp hm
  rw [← hmname, ← hnm]
  exact hn

/-- When all slots are filled, the rules in them are the rules of the builder. -/
theorem rules_eq_ok {b : Builder} {rules : List Rule} (h : b.slots = rules.map Rule.slot) :
    b.rules = .ok rules := by
  rw [Builder.rules, h]
  clear h
  induction rules with
  | nil => rfl
  | cons r rest ih =>
    rw [List.map_cons, List.mapM_cons, ih]
    rfl

/-- Defining a rule leaves slots of other names as they are. -/
theorem map_define_of_notMem {r : Rule} {slots : List (String × Option Rule)}
    (h : r.name ∉ slots.map (·.1)) :
    slots.map (fun (name, rule) => if name = r.name then (name, some r) else (name, rule))
      = slots := by
  refine (List.map_congr_left fun slot hslot => ?_).trans (List.map_id slots)
  have hne : slot.1 ≠ r.name := fun heq => h (heq ▸ List.mem_map_of_mem hslot)
  simp only [if_neg hne, id_eq]

end Builder

namespace Build

variable {α β : Type} {b b' : Builder}

/-! ### Sequences of steps -/

@[simp] theorem run_pure (a : α) (b : Builder) : (pure a : Build α).run b = (.ok a, b) := rfl

@[simp] theorem run_throw (fault : BuildFault) (b : Builder) :
    (throw fault : Build α).run b = (.error fault, b) := rfl

theorem run_bind {x : Build α} {a : α} (h : x.run b = (.ok a, b')) (f : α → Build β) :
    (x >>= f).run b = (f a).run b' := by
  rw [ExceptT.run_bind]
  change StateT.bind x.run _ b = _
  rw [StateT.bind, h]
  rfl

theorem run_bind_of_error {x : Build α} {fault : BuildFault} (h : x.run b = (.error fault, b'))
    (f : α → Build β) : (x >>= f).run b = (.error fault, b') := by
  rw [ExceptT.run_bind]
  change StateT.bind x.run _ b = _
  rw [StateT.bind, h]
  rfl

/-- A sequence of steps succeeds only if both do, the second where the first one ends. -/
theorem run_bind_eq_ok {x : Build α} {f : α → Build β} {c : β}
    (h : (x >>= f).run b = (.ok c, b')) :
    ∃ a s, x.run b = (.ok a, s) ∧ (f a).run s = (.ok c, b') := by
  rcases hx : x.run b with ⟨a | a, s⟩
  · rw [run_bind_of_error hx] at h
    cases h
  · rw [run_bind hx] at h
    exact ⟨a, s, rfl, h⟩

/-- A sequence of steps fails in the first one or in the second. -/
theorem run_bind_eq_error {x : Build α} {f : α → Build β} {fault : BuildFault}
    (h : (x >>= f).run b = (.error fault, b')) :
    x.run b = (.error fault, b') ∨
      ∃ a s, x.run b = (.ok a, s) ∧ (f a).run s = (.error fault, b') := by
  rcases hx : x.run b with ⟨fault' | a, s⟩
  · rw [run_bind_of_error hx] at h
    cases h
    exact Or.inl rfl
  · rw [run_bind hx] at h
    exact Or.inr ⟨a, s, rfl, h⟩

/-- Two steps of which the second continues a list fail in the first one or in the second. -/
theorem run_cons_eq_error {x : Build α} {y : Build (List α)} {fault : BuildFault}
    (h : (do let a ← x; let as ← y; return a :: as).run b = (.error fault, b')) :
    x.run b = (.error fault, b') ∨
      ∃ a s, x.run b = (.ok a, s) ∧ y.run s = (.error fault, b') := by
  refine (run_bind_eq_error h).imp_right fun ⟨a, s, hx, h⟩ => ?_
  rcases run_bind_eq_error h with hy | ⟨as, s', -, h⟩
  · exact ⟨a, s, hx, hy⟩
  · cases h

/-! ### The single steps -/

theorem run_get (b : Builder) : (get : Build Builder).run b = (.ok b, b) := rfl

theorem run_set (b b' : Builder) : (set b' : Build Unit).run b = (.ok (), b') := rfl

theorem run_reserve {name : String} (h : name ∉ b.order) (statement : Option String) :
    (reserve name statement).run b = (.ok (), { b with slots := b.slots ++ [(name, none)] }) := by
  rw [reserve, run_bind (run_get b), Builder.reserve_eq_ok_iff.mpr ⟨h, rfl⟩]
  exact run_set b _

theorem run_reserve_of_mem {name : String} (h : name ∈ b.order) (statement : Option String) :
    (reserve name statement).run b =
      (.error (.grammar ⟨.duplicateIdentifier name, statement⟩), b) := by
  rw [reserve, run_bind (run_get b), Builder.reserve_of_mem h]
  exact run_throw _ b

theorem run_reserve_eq_error {name : String} {statement : Option String} {fault : BuildFault}
    (h : (reserve name statement).run b = (.error fault, b')) :
    fault = .grammar ⟨.duplicateIdentifier name, statement⟩ := by
  by_cases hname : name ∈ b.order
  · rw [run_reserve_of_mem hname] at h
    cases h
    rfl
  · rw [run_reserve hname] at h
    cases h

theorem run_freshName (parent : String) (b : Builder) :
    (freshName parent).run b = (.ok (b.freshName parent).1, (b.freshName parent).2) := rfl

/-- Defining a rule fills the slot reserved for it, wherever that stands. -/
theorem run_define {r : Rule} {before after : List (String × Option Rule)}
    (hslots : b.slots = before ++ (r.name, none) :: after)
    (hbefore : r.name ∉ before.map (·.1)) (hafter : r.name ∉ after.map (·.1)) :
    (define r).run b = (.ok (), { b with slots := before ++ r.slot :: after }) := by
  have hlookup : b.slots.lookup r.name = some none := by
    have hnone : before.lookup r.name = none := by
      rw [List.lookup_eq_none_iff]
      intro slot hslot
      rw [bne_iff_ne]
      intro heq
      exact hbefore (heq ▸ List.mem_map_of_mem hslot)
    rw [hslots, List.lookup_append, hnone, Option.none_or, List.lookup_cons_self]
  have hb : b.define r = .ok { b with slots := before ++ r.slot :: after } := by
    refine Builder.define_eq_ok_iff.mpr ⟨hlookup, ?_⟩
    simp only [hslots, List.map_append, List.map_cons, if_true,
      Builder.map_define_of_notMem hbefore, Builder.map_define_of_notMem hafter, Rule.slot]
  rw [define, run_bind (run_get b), hb]
  exact run_set b _

/-- A rule is not defined if its name is not reserved or has a rule. -/
theorem run_define_eq_error {r : Rule} {fault : BuildFault}
    (h : (define r).run b = (.error fault, b')) :
    fault = .notReserved r.name ∨
      fault = .grammar ⟨.duplicateIdentifier r.name, some r.source⟩ := by
  rw [define, run_bind (run_get b)] at h
  rcases hlookup : b.slots.lookup r.name with _ | _ | r'
  · rw [Builder.define, hlookup] at h
    cases h
    exact Or.inl rfl
  · rw [Builder.define, hlookup] at h
    cases h
  · rw [Builder.define, hlookup] at h
    cases h
    exact Or.inr rfl

end Build
end Ebnf
