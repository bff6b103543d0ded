import Ebnf.Proofs.Definition.Unfolding
import Ebnf.Proofs.StatementOrder

/-!
# The first fault of statements

What is wrong with definitions is reported at the first primary that cannot be read, with the name
of the rule that its bracket was to become.  That name depends only on the brackets before it and on
the names declared, so the report is a function of the statement and of the names declared, with
those declared before it.

## Main definitions

* `Primary.fault?`, `Definitions.fault?` — the first fault in definitions.
* `Primary.unreadables`, `Definitions.unreadables` — all that cannot be read in them.
* `faultOf?`, `firstFault?` — the fault of a statement, and the first one of several.

## Main results

* `Definitions.run_lift_of_fault` — lifting ends with the first fault.
* `firstFault?_eq_some_iff`, `firstFault?_eq_none_iff` — where the first fault is.
* `Build.statements_eq` — **what becomes of statements.**
-/

namespace Ebnf

open Builder (liftedName)
open Source (dropBlanks findPlain?)

variable [Pattern.Engine]

/-! ### Definitions -/

/-- The number of the last rule made out of a rule after one of its primaries. -/
def Primary.last (next : String → Nat → Nat) (parent : String) (k : Nat) : Primary → Nat
  | .bracketed _ _ => next parent k
  | .terminal _ | .pattern _ | .name _ | .unreadable _ => k

/-- The same after the primaries of an alternative. -/
def Primary.lastOf (next : String → Nat → Nat) (parent : String) (k : Nat) (ps : List Primary) :
    Nat :=
  ps.foldl (fun k p => p.last next parent k) k

mutual

/-- The first fault in a primary of the rule `parent`, whose last number is `k`. -/
def Primary.fault? (next : String → Nat → Nat) (parent : String) (k : Nat) :
    Primary → Option Cause
  | .terminal _ | .pattern _ | .name _ => none
  | .unreadable why => some (why.cause parent)
  | .bracketed _ inner => Definitions.fault? next (liftedName parent (next parent k)) 0 inner

/-- The first fault in the primaries of an alternative. -/
def Primary.faultIn? (next : String → Nat → Nat) (parent : String) (k : Nat) :
    List Primary → Option Cause
  | [] => none
  | p :: rest =>
    (p.fault? next parent k).or (Primary.faultIn? next parent (p.last next parent k) rest)

/-- The first fault in definitions, in the order in which lifting comes to them. -/
def Definitions.fault? (next : String → Nat → Nat) (parent : String) (k : Nat) :
    List (List Primary) → Option Cause
  | [] => none
  | alt :: rest =>
    (Primary.faultIn? next parent k alt).or
      (Definitions.fault? next parent (Primary.lastOf next parent k alt) rest)

end

section

variable {next : String → Nat → Nat} {parent : String} {k : Nat}

theorem Primary.last_lifted (owner : String) (p : Primary) :
    (p.lifted next owner parent k).last = p.last next parent k := by
  cases p <;> rw [Primary.lifted, Primary.last]

theorem Primary.last_allLifted (owner : String) : ∀ (ps : List Primary) (k : Nat),
    (Primary.allLifted next owner parent k ps).last = Primary.lastOf next parent k ps := by
  intro ps
  induction ps with
  | nil => exact fun _ => by rw [Primary.allLifted]; rfl
  | cons p rest ih =>
    intro k
    rw [Primary.allLifted]
    dsimp only
    rw [ih, Primary.last_lifted]
    rfl

end

mutual

theorem Primary.fault?_eq_none_iff {next : String → Nat → Nat} : ∀ {p : Primary} {parent : String}
    {k : Nat}, p.fault? next parent k = none ↔ p.Readable
  | .terminal _, _, _ | .pattern _, _, _ | .name _, _, _ => by
    rw [Primary.fault?, Primary.Readable]
    exact iff_of_true rfl trivial
  | .unreadable _, _, _ => by
    rw [Primary.fault?, Primary.Readable]
    exact iff_of_false nofun id
  | .bracketed _ inner, _, _ => by
    rw [Primary.fault?, Primary.Readable]
    exact Definitions.fault?_eq_none_iff

theorem Primary.faultIn?_eq_none_iff {next : String → Nat → Nat} : ∀ {ps : List Primary}
    {parent : String} {k : Nat}, Primary.faultIn? next parent k ps = none ↔ Primary.AllReadable ps
  | [], _, _ => by
    rw [Primary.faultIn?, Primary.AllReadable]
    exact iff_of_true rfl trivial
  | p :: rest, _, _ => by
    rw [Primary.faultIn?, Primary.AllReadable, Option.or_eq_none_iff]
    exact and_congr Primary.fault?_eq_none_iff Primary.faultIn?_eq_none_iff

theorem Definitions.fault?_eq_none_iff {next : String → Nat → Nat} :
    ∀ {d : List (List Primary)} {parent : String} {k : Nat},
    Definitions.fault? next parent k d = none ↔ Definitions.Readable d
  | [], _, _ => by
    rw [Definitions.fault?, Definitions.Readable]
    exact iff_of_true rfl trivial
  | alt :: rest, _, _ => by
    rw [Definitions.fault?, Definitions.Readable, Option.or_eq_none_iff]
    exact and_congr Primary.faultIn?_eq_none_iff Definitions.fault?_eq_none_iff

end

mutual

/-- What cannot be read in a primary, in order. -/
def Primary.unreadables : Primary → List Unreadable
  | .terminal _ | .pattern _ | .name _ => []
  | .unreadable why => [why]
  | .bracketed _ inner => Definitions.unreadables inner

/-- What cannot be read in the primaries of an alternative. -/
def Primary.allUnreadables : List Primary → List Unreadable
  | [] => []
  | p :: rest => p.unreadables ++ Primary.allUnreadables rest

/-- What cannot be read in definitions. -/
def Definitions.unreadables : List (List Primary) → List Unreadable
  | [] => []
  | alt :: rest => Primary.allUnreadables alt ++ Definitions.unreadables rest

end

theorem Primary.mem_allUnreadables_iff {why : Unreadable} {ps : List Primary} :
    why ∈ Primary.allUnreadables ps ↔ ∃ p ∈ ps, why ∈ p.unreadables := by
  induction ps with
  | nil =>
    rw [Primary.allUnreadables]
    simp
  | cons p rest ih => rw [Primary.allUnreadables, List.mem_append, ih, List.exists_mem_cons_iff]

/-- What cannot be read in definitions is in one of their primaries. -/
theorem Definitions.mem_unreadables_iff {why : Unreadable} {d : List (List Primary)} :
    why ∈ Definitions.unreadables d ↔ ∃ alt ∈ d, ∃ p ∈ alt, why ∈ p.unreadables := by
  induction d with
  | nil =>
    rw [Definitions.unreadables]
    simp
  | cons alt rest ih =>
    rw [Definitions.unreadables, List.mem_append, ih, Primary.mem_allUnreadables_iff,
      List.exists_mem_cons_iff]

mutual

theorem Primary.exists_cause_of_fault? {next : String → Nat → Nat} {cause : Cause} :
    ∀ {p : Primary} {parent : String} {k : Nat}, p.fault? next parent k = some cause →
    ∃ why ∈ p.unreadables, ∃ rule, cause = why.cause rule
  | .terminal _, _, _, h | .pattern _, _, _, h | .name _, _, _, h => by
    rw [Primary.fault?] at h
    cases h
  | .unreadable why, parent, _, h => by
    rw [Primary.fault?] at h
    cases h
    exact ⟨why, List.mem_singleton.mpr rfl, parent, rfl⟩
  | .bracketed _ _, _, _, h => by
    rw [Primary.fault?] at h
    exact Definitions.exists_cause_of_fault? h

theorem Primary.exists_cause_of_faultIn? {next : String → Nat → Nat} {cause : Cause} :
    ∀ {ps : List Primary} {parent : String} {k : Nat},
    Primary.faultIn? next parent k ps = some cause →
    ∃ why ∈ Primary.allUnreadables ps, ∃ rule, cause = why.cause rule
  | [], _, _, h => by
    rw [Primary.faultIn?] at h
    cases h
  | _ :: _, _, _, h => by
    rw [Primary.faultIn?, Option.or_eq_some_iff] at h
    rcases h with h | ⟨-, h⟩
    · obtain ⟨why, hwhy, hcause⟩ := Primary.exists_cause_of_fault? h
      exact ⟨why, List.mem_append_left _ hwhy, hcause⟩
    · obtain ⟨why, hwhy, hcause⟩ := Primary.exists_cause_of_faultIn? h
      exact ⟨why, List.mem_append_right _ hwhy, hcause⟩

/-- A fault in definitions is a primary that cannot be read. -/
theorem Definitions.exists_cause_of_fault? {next : String → Nat → Nat} {cause : Cause} :
    ∀ {d : List (List Primary)} {parent : String} {k : Nat},
    Definitions.fault? next parent k d = some cause →
    ∃ why ∈ Definitions.unreadables d, ∃ rule, cause = why.cause rule
  | [], _, _, h => by
    rw [Definitions.fault?] at h
    cases h
  | _ :: _, _, _, h => by
    rw [Definitions.fault?, Option.or_eq_some_iff] at h
    rcases h with h | ⟨-, h⟩
    · obtain ⟨why, hwhy, hcause⟩ := Primary.exists_cause_of_faultIn? h
      exact ⟨why, List.mem_append_left _ hwhy, hcause⟩
    · obtain ⟨why, hwhy, hcause⟩ := Definitions.exists_cause_of_fault? h
      exact ⟨why, List.mem_append_right _ hwhy, hcause⟩

end

/-! ### Lifting -/

variable {owner statement : String}

mutual

/-- Lifting a primary ends with its first fault. The fault names the rule it is in, so the numbers
of the brackets before have to be those of the builder. -/
theorem Primary.run_lift_of_fault : ∀ {p : Primary} {parent : String} {b : Builder} {cause : Cause},
    p.fault? (nextNumber b.declared) parent (b.counter parent) = some cause → b.order.Nodup →
    b.Numbered → parent ∈ b.order →
    ∃ b', (p.lift owner statement parent).run b = (.error (.grammar ⟨cause, some statement⟩), b')
  | .terminal _, _, _, _, h, _, _, _ | .pattern _, _, _, _, h, _, _, _
  | .name _, _, _, _, h, _, _, _ => by
    rw [Primary.fault?] at h
    cases h
  | .unreadable why, parent, b, _, h, _, _, _ => by
    rw [Primary.fault?] at h
    cases h
    exact ⟨b, by rw [Primary.lift, Build.run_throw]⟩
  | .bracketed bracket inner, parent, b, cause, h, hb, hnumbered, hparent => by
    rw [Primary.fault?] at h
    -- the bracket's rule has a name in which nothing has been counted yet
    have hzero := hnumbered.counter_freshName_eq_zero hparent
    rw [← hnumbered.freshName_eq, ← hzero] at h
    obtain ⟨b', hinner⟩ := Definitions.run_lift_of_fault (b := b.reserveFresh parent) h
      (Builder.nodup_order_reserveFresh hb parent) (hnumbered.reserveFresh hparent)
      (Builder.mem_order_reserveFresh.mpr (Or.inr rfl))
    refine ⟨b', ?_⟩
    rw [Primary.lift, Build.run_reserveFresh]
    exact Build.run_bind_of_error hinner _

theorem Primary.run_liftAll_of_fault : ∀ {ps : List Primary} {parent : String} {b : Builder}
    {cause : Cause}, Primary.faultIn? (nextNumber b.declared) parent (b.counter parent) ps
      = some cause → b.order.Nodup → b.Numbered → parent ∈ b.order →
    ∃ b', (Primary.liftAll owner statement parent ps).run b
      = (.error (.grammar ⟨cause, some statement⟩), b')
  | [], _, _, _, h, _, _, _ => by
    rw [Primary.faultIn?] at h
    cases h
  -- the first fault of a list is that of its first primary, or there is none in that one
  | p :: rest, parent, b, cause, h, hb, hnumbered, hparent => by
    rw [Primary.faultIn?, Option.or_eq_some_iff] at h
    rw [Primary.liftAll]
    rcases h with h | ⟨hnone, h⟩
    · obtain ⟨b', hrun⟩ := Primary.run_lift_of_fault h hb hnumbered hparent
      exact ⟨b', Build.run_bind_of_error hrun _⟩
    · -- the first primary can be lifted, which counts its bracket
      obtain ⟨atom, rules, b₁, hrun, -⟩ :=
        Primary.run_lift p (Primary.fault?_eq_none_iff.mp hnone) parent b hb
      obtain ⟨-, htakes⟩ := Primary.takes_of_run_lift hrun hb hnumbered hparent
      rw [← Primary.last_lifted owner, ← htakes.counter_eq, ← htakes.adds.declared_eq]
        at h
      obtain ⟨b', hrest⟩ := Primary.run_liftAll_of_fault h htakes.adds.nodup htakes.numbered
        (htakes.mem_order hparent)
      exact ⟨b', (Build.run_bind hrun _).trans (Build.run_bind_of_error hrest _)⟩

/-- Lifting ends with the first fault, which is the same in every builder with the given numbers. -/
theorem Definitions.run_lift_of_fault : ∀ {d : List (List Primary)} {parent : String} {b : Builder}
    {cause : Cause}, Definitions.fault? (nextNumber b.declared) parent (b.counter parent) d
      = some cause → b.order.Nodup → b.Numbered → parent ∈ b.order →
    ∃ b', (Definitions.lift owner statement parent d).run b
      = (.error (.grammar ⟨cause, some statement⟩), b')
  | [], _, _, _, h, _, _, _ => by
    rw [Definitions.fault?] at h
    cases h
  | alt :: rest, parent, b, cause, h, hb, hnumbered, hparent => by
    rw [Definitions.fault?, Option.or_eq_some_iff] at h
    rw [Definitions.lift]
    rcases h with h | ⟨hnone, h⟩
    · obtain ⟨b', hrun⟩ := Primary.run_liftAll_of_fault h hb hnumbered hparent
      exact ⟨b', Build.run_bind_of_error hrun _⟩
    · obtain ⟨atoms, rules, b₁, hrun, -⟩ :=
        Primary.run_liftAll alt (Primary.faultIn?_eq_none_iff.mp hnone) parent b hb
      obtain ⟨-, htakes⟩ := Primary.takes_of_run_liftAll hrun hb hnumbered hparent
      rw [← Primary.last_allLifted owner, ← htakes.counter_eq, ← htakes.adds.declared_eq] at h
      obtain ⟨b', hrest⟩ := Definitions.run_lift_of_fault h htakes.adds.nodup htakes.numbered
        (htakes.mem_order hparent)
      exact ⟨b', (Build.run_bind hrun _).trans (Build.run_bind_of_error hrest _)⟩

end

/-! ### Reading a statement -/

section

variable {raw : List Char}

/-- What is wrong before the definitions of a statement. -/
theorem Statement.kind_of_read {fault : Fault} (h : Statement.read raw = .error fault) :
    fault.cause.kind ∈ [.missingDefiningSymbol, .emptyIdentifier, .malformedAtom] := by
  rw [Statement.read] at h
  dsimp only at h
  split at h
  · cases h
    exact List.mem_cons_self
  · cases h
    exact List.mem_cons_of_mem _ List.mem_cons_self
  · split at h
    · cases h
      exact List.mem_cons_of_mem _ (List.mem_cons_of_mem _ List.mem_cons_self)
    · cases h

/-- The definitions of a statement are read behind an equals sign. -/
theorem Statement.exists_cut_of_read {s : Statement} (h : Statement.read raw = .ok s) :
    ∃ cut, findPlain? '=' (dropBlanks raw) = some cut ∧
      s.definitions = readDefinitions ((dropBlanks raw).drop (cut + 1)) := by
  rw [Statement.read] at h
  dsimp only at h
  split at h
  · cases h
  · cases h
  · next cut _ hcut =>
    split at h
    · cases h
    · cases h
      exact ⟨cut, hcut, rfl⟩

end

/-! ### Statements -/

/-- The fault of a statement where the names are declared and those in `earlier` are by statements
before it.  What it declares is read first, and its definitions last. -/
def faultOf? (declared earlier : List String) (raw : List Char) : Option Fault :=
  match Statement.read raw with
  | .error fault => some fault
  | .ok s =>
    if s.name ∈ earlier then some ⟨.duplicateIdentifier s.name, some s.text⟩
    else (Definitions.fault? (nextNumber declared) s.name 0 s.definitions).map (⟨·, some s.text⟩)

/-- The first fault of statements, each of which sees the names of those before it. -/
def firstFault? (declared earlier : List String) : List (List Char) → Option Fault
  | [] => none
  | raw :: rest =>
    (faultOf? declared earlier raw).or
      (firstFault? declared (earlier ++ (declaredName? raw).toList) rest)

section

variable {declared earlier : List String} {raw : List Char} {raws : List (List Char)}

theorem faultOf?_of_read {s : Statement} (h : Statement.read raw = .ok s) :
    faultOf? declared earlier raw =
      if s.name ∈ earlier then some ⟨.duplicateIdentifier s.name, some s.text⟩
      else (Definitions.fault? (nextNumber declared) s.name 0 s.definitions).map
        (⟨·, some s.text⟩) := by
  unfold faultOf?
  rw [h]

/-- A statement has no fault when it is written as one and declares a new name. -/
theorem faultOf?_eq_none_iff :
    faultOf? declared earlier raw = none ↔
      ∃ name d, IsStatement name d (dropBlanks raw) ∧ name ∉ earlier := by
  constructor
  · intro h
    rcases hread : Statement.read raw with fault | s
    · rw [faultOf?, hread] at h
      cases h
    · rw [faultOf?_of_read hread] at h
      split at h
      · cases h
      · next hname =>
        have hreadable := Definitions.fault?_eq_none_iff.mp (Option.map_eq_none_iff.mp h)
        exact ⟨s.name, s.definitions, isStatement_of_read hread hreadable, hname⟩
  · rintro ⟨name, d, hstatement, hname⟩
    obtain ⟨_, _, _, hwritten⟩ := id hstatement
    rw [faultOf?_of_read hstatement.read_eq, if_neg hname]
    exact Option.map_eq_none_iff.mpr (Definitions.fault?_eq_none_iff.mpr hwritten.readable)

theorem declaredName?_of_isStatement {name : String} {d : Definitions}
    (h : IsStatement name d (dropBlanks raw)) : declaredName? raw = some name :=
  Statement.declaredName?_of_read h.read_eq

omit [Pattern.Engine] in
theorem declaredNames_cons (raw : List Char) (raws : List (List Char)) :
    declaredNames (raw :: raws) = (declaredName? raw).toList ++ declaredNames raws := by
  rw [declaredNames, List.filterMap_cons, declaredNames]
  cases declaredName? raw <;> rfl

/-- The first fault is that of a statement before which there is none, among the names that those
before it declare. -/
theorem firstFault?_eq_some_iff {fault : Fault} :
    firstFault? declared earlier raws = some fault ↔
      ∃ before raw after, raws = before ++ raw :: after ∧
        firstFault? declared earlier before = none ∧
        faultOf? declared (earlier ++ declaredNames before) raw = some fault := by
  induction raws generalizing earlier with
  | nil =>
    refine iff_of_false nofun ?_
    rintro ⟨before, raw, after, heq, -⟩
    cases before <;> cases heq
  | cons first rest ih =>
    rw [firstFault?, Option.or_eq_some_iff, ih]
    constructor
    · -- the fault is that of the first statement, or the first has none and counts as one before
      rintro (h | ⟨hnone, before, raw, after, rfl, hbefore, h⟩)
      · refine ⟨[], first, rest, rfl, rfl, ?_⟩
        rw [declaredNames, List.filterMap_nil, List.append_nil]
        exact h
      · refine ⟨first :: before, raw, after, rfl, ?_, ?_⟩
        · rw [firstFault?, hnone, Option.none_or]
          exact hbefore
        · rw [List.append_assoc] at h
          rw [declaredNames_cons]
          exact h
    · rintro ⟨before, raw, after, heq, hbefore, h⟩
      cases before with
      | nil =>
        cases heq
        rw [declaredNames, List.filterMap_nil, List.append_nil] at h
        exact Or.inl h
      | cons _ before =>
        cases heq
        rw [firstFault?, Option.or_eq_none_iff] at hbefore
        rw [declaredNames_cons, ← List.append_assoc] at h
        exact Or.inr ⟨hbefore.1, before, raw, after, rfl, hbefore.2, h⟩

/-- Statements have no fault when each is written as one and they declare different names. -/
theorem firstFault?_eq_none_iff :
    firstFault? declared earlier raws = none ↔
      (∀ raw ∈ raws, ∃ name d, IsStatement name d (dropBlanks raw)) ∧
        (declaredNames raws).Nodup ∧ ∀ name ∈ declaredNames raws, name ∉ earlier := by
  induction raws generalizing earlier with
  | nil => exact iff_of_true rfl ⟨nofun, List.nodup_nil, nofun⟩
  | cons first rest ih =>
    rw [firstFault?, Option.or_eq_none_iff, ih, faultOf?_eq_none_iff, List.forall_mem_cons]
    constructor
    · -- names that differ from the first and from each other are the names without repetition
      rintro ⟨⟨name, d, hfirst, hname⟩, hrest, hnodup, hnew⟩
      rw [declaredName?_of_isStatement hfirst] at hnew
      rw [declaredNames_cons, declaredName?_of_isStatement hfirst]
      simp only [Option.toList_some, List.mem_append, List.mem_singleton, not_or] at hnew
      refine ⟨⟨⟨name, d, hfirst⟩, hrest⟩, List.nodup_cons.mpr ⟨fun hmem => ?_, hnodup⟩, ?_⟩
      · exact (hnew name hmem).2 rfl
      · exact List.forall_mem_cons.mpr ⟨hname, fun name' hmem => (hnew name' hmem).1⟩
    · rintro ⟨⟨⟨name, d, hfirst⟩, hrest⟩, hnodup, hnew⟩
      rw [declaredNames_cons, declaredName?_of_isStatement hfirst] at hnodup hnew
      obtain ⟨hnot, hnodup⟩ := List.nodup_cons.mp hnodup
      obtain ⟨hname, hnew⟩ := List.forall_mem_cons.mp hnew
      refine ⟨⟨name, d, hfirst, hname⟩, hrest, hnodup, fun name' hmem => ?_⟩
      rw [declaredName?_of_isStatement hfirst, Option.toList_some, List.mem_append,
        List.mem_singleton]
      rintro (hmem' | rfl)
      · exact hnew name' hmem hmem'
      · exact hnot hmem

end

namespace Build

variable {b : Builder} {earlier : List String} {raw : List Char}

/-- A statement fails with its fault, where the declared names that are reserved are those of the
statements before it. -/
theorem run_statement_of_fault {fault : Fault} (hb : b.order.Nodup) (hnumbered : b.Numbered)
    (hdeclared : ∀ name, declaredName? raw = some name → name ∈ b.declared)
    (hearlier : ∀ name ∈ b.declared, name ∈ b.order ↔ name ∈ earlier)
    (h : faultOf? b.declared earlier raw = some fault) :
    ∃ b', (Build.statement raw).run b = (.error (.grammar fault), b') := by
  unfold Build.statement
  rcases hread : Statement.read raw with fault' | s
  · -- what cannot be read as a statement reports that, before anything is reserved
    rw [faultOf?, hread] at h
    cases h
    exact ⟨b, rfl⟩
  · rw [faultOf?_of_read hread] at h
    have hname := hdeclared s.name (Statement.declaredName?_of_read hread)
    split at h
    · next hmem =>
      cases h
      -- the name is that of an earlier statement
      exact ⟨b, run_bind_of_error (run_reserve_of_mem ((hearlier _ hname).mpr hmem) _) _⟩
    · next hmem =>
      have hfresh : s.name ∉ b.order := fun hmem' => hmem ((hearlier _ hname).mp hmem')
      obtain ⟨cause, hcause, rfl⟩ := Option.map_eq_some_iff.mp h
      -- no rule was lifted out of the statement's rule before
      have hzero : Builder.counter { b with slots := b.slots ++ [(s.name, none)] } s.name = 0 :=
        hnumbered.counter_eq_zero s.name hfresh
      rw [← hzero] at hcause
      obtain ⟨b', hlift⟩ : ∃ b', (Definitions.lift s.name s.text s.name s.definitions).run
          { b with slots := b.slots ++ [(s.name, none)] }
            = (.error (.grammar ⟨cause, some s.text⟩), b') :=
        Definitions.run_lift_of_fault hcause (Builder.nodup_order_reserve hb hfresh)
          (hnumbered.reserve hname) (Builder.mem_order_reserve.mpr (Or.inr rfl))
      exact ⟨b', (run_bind (run_reserve hfresh _) _).trans (run_bind_of_error hlift _)⟩

/-- A statement without fault can be added, and leaves the numbers of brackets in order for the next
one. -/
theorem run_statement_of_no_fault (hb : b.order.Nodup) (hnumbered : b.Numbered)
    (hdeclared : ∀ name, declaredName? raw = some name → name ∈ b.declared)
    (hearlier : ∀ name ∈ b.declared, name ∈ b.order ↔ name ∈ earlier)
    (h : faultOf? b.declared earlier raw = none) :
    ∃ name b', (Build.statement raw).run b = (.ok name, b') ∧ b'.declared = b.declared ∧
      b'.order.Nodup ∧ b'.Numbered ∧
      ∀ name ∈ b.declared, name ∈ b'.order ↔ name ∈ earlier ++ (declaredName? raw).toList := by
  obtain ⟨name, d, hstatement, hname⟩ := faultOf?_eq_none_iff.mp h
  obtain ⟨_, _, _, hwritten⟩ := id hstatement
  have hdeclares := declaredName?_of_isStatement hstatement
  have hfresh : name ∉ b.order := fun hmem => hname ((hearlier _ (hdeclared _ hdeclares)).mp hmem)
  obtain ⟨_, rules, b', hrun, hext, hlifted, rfl, hmakes⟩ :=
    run_statement hstatement.read_eq hwritten.readable hfresh hb
  obtain ⟨-, hnumbered'⟩ := extends_of_run_statement hb hnumbered
    (fun s hread => hdeclared s.name (Statement.declaredName?_of_read hread)) hrun
  refine ⟨_, b', hrun, hext.declared_eq, hext.nodup, hnumbered', fun name' hname' => ?_⟩
  rw [mem_order_of_makes hext hmakes hlifted hname', hearlier _ hname', hdeclares,
    Option.toList_some, List.mem_append, List.mem_singleton]

/-- Statements fail with their first fault, if there is one. -/
theorem run_statements_eq : ∀ {raws : List (List Char)} {b : Builder} {earlier : List String},
    b.order.Nodup → b.Numbered → declaredNames raws ⊆ b.declared →
    (∀ name ∈ b.declared, name ∈ b.order ↔ name ∈ earlier) →
    ∃ b', (raws.forM fun raw => discard (Build.statement raw)).run b =
      ((firstFault? b.declared earlier raws).elim (.ok ()) (.error <| .grammar ·), b') := by
  intro raws
  induction raws with
  | nil => exact fun _ _ _ _ => ⟨_, rfl⟩
  | cons raw rest ih =>
    intro b earlier hb hnumbered hdeclared hearlier
    rw [declaredNames_cons] at hdeclared
    have hfirst : ∀ name, declaredName? raw = some name → name ∈ b.declared := fun name hname =>
      hdeclared (List.mem_append_left _ (by rw [hname]; exact List.mem_singleton.mpr rfl))
    rw [firstFault?]
    rcases hfault : faultOf? b.declared earlier raw with _ | fault
    · obtain ⟨name, b₁, hrun, hsame, hb₁, hnumbered₁, hearlier₁⟩ :=
        run_statement_of_no_fault hb hnumbered hfirst hearlier hfault
      rw [run_statements_cons hrun, Option.none_or, ← hsame]
      rw [← hsame] at hearlier₁ hdeclared
      exact ih hb₁ hnumbered₁ (fun name hname => hdeclared (List.mem_append_right _ hname))
        hearlier₁
    · -- the fault is this statement's, and ends the run
      obtain ⟨b', hrun⟩ := run_statement_of_fault hb hnumbered hfirst hearlier hfault
      refine ⟨b', run_bind_of_error ?_ _⟩
      dsimp only
      rw [discard_eq]
      exact run_bind_of_error hrun _

/-- **What becomes of statements**: a builder, or the first fault. Which of the two can be told from
the texts alone, without a builder. -/
theorem statements_eq (raws : List (List Char)) :
    (∃ b, firstFault? (declaredNames raws) [] raws = none ∧
      Build.statements raws = .ok b) ∨
    ∃ fault, firstFault? (declaredNames raws) [] raws = some fault ∧
      Build.statements raws = .error (.grammar fault) := by
  obtain ⟨b', hrun⟩ : ∃ b', (raws.forM fun raw => discard (Build.statement raw)).run
      (Builder.empty (declaredNames raws)) =
        ((firstFault? (declaredNames raws) [] raws).elim (.ok ()) (.error <| .grammar ·), b') :=
    run_statements_eq List.nodup_nil (Builder.numbered_empty _) (List.Subset.refl _)
      (fun _ _ => Iff.rfl)
  unfold Build.statements
  rw [hrun]
  rcases firstFault? (declaredNames raws) [] raws with _ | fault
  · exact Or.inl ⟨b', rfl, rfl⟩
  · exact Or.inr ⟨fault, rfl, rfl⟩

end Build

end Ebnf
