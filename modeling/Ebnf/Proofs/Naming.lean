import Ebnf.Proofs.Stages
import Mathlib.Data.Nat.Nth

/-!
# The names of brackets

A bracket's rule is named for the rule in which the bracket stands, with a number.  The `j`-th
bracket of a rule has the `j`-th of the numbers whose names no statement declares, whether the rule
is that of a statement or that of a bracket, and wherever its statement stands.  So all names can be
told from the text alone, and none is given twice.

## Main definitions

* `Definitions.brackets` — the brackets that stand in definitions, not counting those within them.
* `IsOpenNumber`, `bracketName` — the numbers left for brackets, and the name of the `j`-th one.
* `Defines` — which rules have which definitions as written.

## Main results

* `nextNumber_eq_nth` — the next number is the first one left.
* `Definitions.brackets_lifted`, `Definitions.rules_lifted` — what lifting makes of brackets.
* `Grammar.names_spec` — **which names a grammar has.**
-/

namespace Ebnf

open Builder (liftedName)
open Source (dropBlanks CutInto)

section AnyEngine

variable [Pattern.Engine]

/-! ### Numbers -/

/-- The number is left for a bracket of the rule: no statement declares its name. -/
def IsOpenNumber (declared : List String) (parent : String) (k : Nat) : Prop :=
  0 < k ∧ liftedName parent k ∉ declared

instance (declared : List String) (parent : String) :
    DecidablePred (IsOpenNumber declared parent) :=
  fun _ => inferInstanceAs (Decidable (_ ∧ _))

/-- The name of the `j`-th bracket of a rule, counted from zero. -/
noncomputable def bracketName (declared : List String) (parent : String) (j : Nat) : String :=
  liftedName parent (Nat.nth (IsOpenNumber declared parent) j)

section

variable {declared : List String} {parent : String}

theorem isOpenNumber_nextNumber (k : Nat) :
    IsOpenNumber declared parent (nextNumber declared parent k) := by
  obtain ⟨hlt, hfresh, -⟩ := nextNumber_spec declared parent k
  exact ⟨Nat.zero_lt_of_lt hlt, hfresh⟩

/-- The numbers do not run out, since only so many names are declared. -/
theorem infinite_isOpenNumber : {k | IsOpenNumber declared parent k}.Infinite := by
  refine Set.infinite_of_forall_exists_gt fun k => ?_
  exact ⟨nextNumber declared parent k, isOpenNumber_nextNumber k,
    (nextNumber_spec declared parent k).1⟩

/-- The next number is the first one left after the last, and so the numbers of brackets are those
left for the rule in order. -/
theorem nextNumber_eq_nth (k : Nat) : nextNumber declared parent k =
    Nat.nth (IsOpenNumber declared parent) (Nat.count (IsOpenNumber declared parent) (k + 1)) := by
  obtain ⟨hlt, -, hpassed⟩ := nextNumber_spec declared parent k
  have hleast : IsLeast {i | IsOpenNumber declared parent i ∧ k + 1 ≤ i}
      (nextNumber declared parent k) := by
    refine ⟨⟨isOpenNumber_nextNumber k, hlt⟩, ?_⟩
    rintro i ⟨⟨-, hfree⟩, hk⟩
    exact Nat.le_of_not_lt fun hi => hfree (hpassed i hk hi)
  rw [Nat.nth_count_eq_sInf, hleast.csInf_eq]

variable (declared parent) in
/-- The number of the last bracket among `j` brackets. -/
noncomputable def lastNumber : Nat → Nat
  | 0 => 0
  | j + 1 => Nat.nth (IsOpenNumber declared parent) j

theorem nextNumber_lastNumber (j : Nat) : nextNumber declared parent (lastNumber declared parent j)
    = Nat.nth (IsOpenNumber declared parent) j := by
  rw [nextNumber_eq_nth]
  congr 1
  cases j with
  | zero => simp [lastNumber, Nat.count_succ, IsOpenNumber]
  | succ j => exact Nat.count_nth_succ_of_infinite infinite_isOpenNumber j

end

/-! ### Brackets -/

/-- The bracket that a primary is, with the definitions in it. -/
def Primary.bracket? : Primary → Option (Bracket × Definitions)
  | .bracketed bracket inner => some (bracket, inner)
  | .terminal _ | .pattern _ | .name _ | .unreadable _ => none

/-- The brackets that stand in definitions, from left to right.  Those within them stand in their
own definitions. -/
def Definitions.brackets (d : List (List Primary)) : List (Bracket × Definitions) :=
  d.flatten.filterMap Primary.bracket?

theorem Definitions.sizeOf_lt_of_mem_brackets {d : List (List Primary)} {bracket : Bracket}
    {inner : Definitions} (h : (bracket, inner) ∈ Definitions.brackets d) :
    sizeOf inner < sizeOf d := by
  obtain ⟨p, hp, hbracket⟩ := List.mem_filterMap.mp h
  obtain ⟨alt, halt, hp⟩ := List.mem_flatten.mp hp
  have hinner : sizeOf inner < sizeOf p := by
    cases p <;> cases hbracket
    simp
  have hprimary := List.sizeOf_lt_of_mem hp
  have halternative := List.sizeOf_lt_of_mem halt
  omega

section

variable (declared : List String) (owner : String)

/-- The rule of a bracket and the rules lifted out of that. -/
def bracketRules (name : String) (bracket : Bracket) (inner : Definitions) : List Rule :=
  let below := Definitions.lifted (nextNumber declared) owner name 0 inner
  Rule.ofBracket owner name bracket inner below.left :: below.rules

variable {declared owner} {parent : String} {next : String → Nat → Nat}

theorem Primary.allLifted_append : ∀ {ps : List Primary} {k : Nat} (qs : List Primary),
    Primary.allLifted next owner parent k (ps ++ qs) =
      let first := Primary.allLifted next owner parent k ps
      let others := Primary.allLifted next owner parent first.last qs
      ⟨first.left ++ others.left, first.rules ++ others.rules, others.last⟩ := by
  intro ps
  induction ps with
  | nil =>
    intro k qs
    rw [List.nil_append, Primary.allLifted]
    rfl
  | cons p rest ih =>
    intro k qs
    rw [List.cons_append, Primary.allLifted, Primary.allLifted]
    dsimp only
    rw [ih]
    dsimp only
    rw [List.append_assoc, List.append_assoc]

/-- Where the bars stand makes no difference to what is lifted. -/
theorem Definitions.lifted_flatten : ∀ {d : List (List Primary)} {k : Nat},
    Primary.allLifted next owner parent k d.flatten =
      let l := Definitions.lifted next owner parent k d
      ⟨l.left.flatten, l.rules, l.last⟩ := by
  intro d
  induction d with
  | nil =>
    intro k
    rw [List.flatten_nil, Primary.allLifted, Definitions.lifted]
    rfl
  | cons alt rest ih =>
    intro k
    rw [List.flatten_cons, Primary.allLifted_append, Definitions.lifted]
    dsimp only
    rw [ih]
    rfl

/-- Only brackets are lifted. -/
theorem Primary.lifted_of_bracket?_eq_none {p : Primary} (h : p.bracket? = none)
    (next : String → Nat → Nat) (owner parent : String) (k : Nat) :
    (p.lifted next owner parent k).left.filterMap Atom.bracket? = [] ∧
      (p.lifted next owner parent k).rules = [] ∧ (p.lifted next owner parent k).last = k := by
  cases p with
  | bracketed bracket inner => cases h
  | terminal _ | pattern _ | name _ | unreadable _ =>
    rw [Primary.lifted]
    exact ⟨rfl, rfl, rfl⟩

/-- Lifting counts through the numbers that are left. -/
theorem Primary.allLifted_eq : ∀ (ps : List Primary) (j : Nat),
    let l := Primary.allLifted (nextNumber declared) owner parent (lastNumber declared parent j) ps
    let brackets := (ps.filterMap Primary.bracket?).zipIdx j
    l.left.filterMap Atom.bracket?
        = brackets.map (fun x => (x.1.1.word, bracketName declared parent x.2)) ∧
      l.rules = brackets.flatMap fun x =>
        bracketRules declared owner (bracketName declared parent x.2) x.1.1 x.1.2 := by
  intro ps
  induction ps with
  | nil =>
    intro j
    rw [Primary.allLifted]
    exact ⟨rfl, rfl⟩
  | cons p rest ih =>
    intro j
    rw [Primary.allLifted]
    dsimp only
    rcases hbracket : p.bracket? with _ | ⟨bracket, inner⟩
    · -- what is no bracket takes no name, so the others count from the same place
      obtain ⟨hleft, hrules, hlast⟩ := Primary.lifted_of_bracket?_eq_none hbracket
        (nextNumber declared) owner parent (lastNumber declared parent j)
      rw [List.filterMap_append, hleft, hrules, hlast, List.filterMap_cons_none hbracket]
      exact ih j
    · -- a bracket takes the next name, and the others count behind it
      cases p <;> cases hbracket
      obtain ⟨hleft, hrules⟩ := ih (j + 1)
      rw [List.filterMap_cons_some (by rfl), List.zipIdx_cons, List.map_cons, List.flatMap_cons,
        ← hleft, ← hrules, Primary.lifted, nextNumber_lastNumber]
      exact ⟨rfl, rfl⟩

/-- The brackets that lifting leaves in definitions, each with the name that its place gives it. -/
theorem Definitions.brackets_lifted (d : List (List Primary)) :
    bracketsIn (Definitions.lifted (nextNumber declared) owner parent 0 d).left
      = (Definitions.brackets d).zipIdx.map fun x =>
        (x.1.1.word, bracketName declared parent x.2) := by
  obtain ⟨hleft, -⟩ := @Primary.allLifted_eq _ declared owner parent d.flatten 0
  rw [lastNumber, Definitions.lifted_flatten] at hleft
  exact hleft

/-- The rules lifted out of definitions, bracket by bracket, each with the name that its place gives
it. -/
theorem Definitions.rules_lifted (d : List (List Primary)) :
    (Definitions.lifted (nextNumber declared) owner parent 0 d).rules
      = (Definitions.brackets d).zipIdx.flatMap fun x =>
        bracketRules declared owner (bracketName declared parent x.2) x.1.1 x.1.2 := by
  obtain ⟨-, hrules⟩ := @Primary.allLifted_eq _ declared owner parent d.flatten 0
  rw [lastNumber, Definitions.lifted_flatten] at hrules
  exact hrules

end

/-! ### Rules and what defines them -/

/-- The rule of the name has the definitions, as written in the statements.  A bracket has the
definitions in it, and its name follows from the rule in which it stands. -/
inductive Defines (raws : List (List Char)) : String → Definitions → Prop
  /-- The rule of a statement. -/
  | statement {raw : List Char} {name : String} {d : Definitions} (hraw : raw ∈ raws)
    (h : IsStatement name d (dropBlanks raw)) : Defines raws name d
  /-- The rule of the `j`-th bracket in a rule. -/
  | bracket {parent : String} {d inner : Definitions} {j : Nat} {bracket : Bracket}
    (h : Defines raws parent d) (hj : (Definitions.brackets d)[j]? = some (bracket, inner)) :
    Defines raws (bracketName (declaredNames raws) parent j) inner

section

variable {raws : List (List Char)} {name owner : String} {d : Definitions}

/-- What is defined has a rule, and so have the brackets in it. -/
theorem Defines.exists_rule (h : Defines raws name d) : ∃ owner,
    (∃ r ∈ rulesOf raws, r.name = name ∧ r.alts =
      (Definitions.lifted (nextNumber (declaredNames raws)) owner name 0 d).left) ∧
    (Definitions.lifted (nextNumber (declaredNames raws)) owner name 0 d).rules ⊆ rulesOf raws := by
  induction h with
  | @statement raw name d hraw hstatement =>
    have hsub : blockOf (declaredNames raws) raw ⊆ rulesOf raws :=
      fun r hr => List.mem_flatMap.mpr ⟨raw, hraw, hr⟩
    rw [blockOf_of_read hstatement.read_eq, Statement.block] at hsub
    exact ⟨name, ⟨_, hsub List.mem_cons_self, rfl, rfl⟩, fun r hr =>
      hsub (List.mem_cons_of_mem _ hr)⟩
  | @bracket parent d inner j bracket _ hj ih =>
    obtain ⟨owner, -, hsub⟩ := ih
    have hbelow : bracketRules (declaredNames raws) owner
        (bracketName (declaredNames raws) parent j) bracket inner ⊆ rulesOf raws := by
      rw [Definitions.rules_lifted] at hsub
      exact fun r hr => hsub (List.mem_flatMap.mpr
        ⟨((bracket, inner), j), List.mem_zipIdx_iff_getElem?.mpr hj, hr⟩)
    exact ⟨owner, ⟨_, hbelow List.mem_cons_self, rfl, rfl⟩, fun r hr =>
      hbelow (List.mem_cons_of_mem _ hr)⟩

/-- The rules lifted out of a rule that is defined are defined. -/
theorem Defines.exists_of_mem_lifted (h : Defines raws name d) {r : Rule}
    (hr : r ∈ (Definitions.lifted (nextNumber (declaredNames raws)) owner name 0 d).rules) :
    ∃ d', Defines raws r.name d' := by
  -- induction on the size of the definitions, since a bracket's are part of those around it
  induction hn : sizeOf d using Nat.strongRecOn generalizing name d with
  | ind n ih =>
    rw [Definitions.rules_lifted] at hr
    obtain ⟨⟨⟨bracket, inner⟩, j⟩, hmem, hr⟩ := List.mem_flatMap.mp hr
    have hbracket := List.mem_zipIdx_iff_getElem?.mp hmem
    have hinner := h.bracket hbracket
    rcases List.mem_cons.mp hr with rfl | hr
    · exact ⟨inner, hinner⟩
    · refine ih _ ?_ hinner hr rfl
      rw [← hn]
      exact Definitions.sizeOf_lt_of_mem_brackets (List.mem_of_getElem? hbracket)

/-- Every rule is defined somewhere: by a statement, or by the bracket it was lifted from. -/
theorem exists_defines (h : ∀ raw ∈ raws, ∃ name d, IsStatement name d (dropBlanks raw)) :
    ∀ r ∈ rulesOf raws, ∃ d, Defines raws r.name d := by
  intro r hr
  obtain ⟨raw, hraw, hr⟩ := List.mem_flatMap.mp hr
  obtain ⟨name, d, hstatement⟩ := h raw hraw
  rw [blockOf_of_read hstatement.read_eq] at hr
  rcases List.mem_cons.mp hr with rfl | hr
  · exact ⟨d, .statement hraw hstatement⟩
  · exact (Defines.statement hraw hstatement).exists_of_mem_lifted hr

end

/-! ### Names declared twice -/

/-- A statement is at fault for its name only if another one before it declares that. -/
theorem mem_of_faultOf? {declared earlier : List String} {raw : List Char} {fault : Fault}
    (h : faultOf? declared earlier raw = some fault)
    (hkind : fault.cause.kind = .duplicateIdentifier) :
    ∃ name ∈ earlier, declaredName? raw = some name ∧
      fault.cause = .duplicateIdentifier name := by
  rcases hread : Statement.read raw with fault' | s
  · rw [faultOf?, hread] at h
    cases h
    have hmem := Statement.kind_of_read hread
    rw [hkind] at hmem
    exact absurd hmem (by decide)
  · rw [faultOf?_of_read hread] at h
    split at h
    · next hname =>
      cases h
      exact ⟨s.name, hname, Statement.declaredName?_of_read hread, rfl⟩
    · obtain ⟨cause, hcause, rfl⟩ := Option.map_eq_some_iff.mp h
      obtain ⟨why, -, rule, rfl⟩ := Definitions.exists_cause_of_fault? hcause
      cases why with
      | split fault text => cases fault <;> cases hkind
      | _ => cases hkind

namespace Grammar

variable {text : List Char}

theorem FailsWith.declared_twice {fault : Fault} (h : FailsWith text (.grammar fault))
    (hkind : fault.cause.kind = .duplicateIdentifier) :
    ∃ before raw after name, CutInto text (before ++ raw :: after) ∧
      name ∈ declaredNames before ∧ declaredName? raw = some name ∧
      fault.cause = .duplicateIdentifier name := by
  cases h with
  | @breaksOff fault h => cases fault <;> cases hkind
  | @statement before after raw _ hcut _ h =>
    obtain ⟨name, hname, hdeclared, hcause⟩ := mem_of_faultOf? h hkind
    exact ⟨before, raw, after, name, hcut, hname, hdeclared, hcause⟩
  | empty => cases hkind
  | unresolved => cases hkind
  | refused => cases hkind

/-- The names of a grammar, told from the names that its statements declare. -/
theorem names_of_compile {g : Grammar} (h : compile text = .ok g) :
    ∃ raws, CutInto text raws ∧ (∀ raw ∈ raws, ∃ name d, IsStatement name d (dropBlanks raw)) ∧
      (declaredNames raws).Nodup ∧ g.rules = rulesOf raws ∧ g.names.Nodup ∧
      ∀ r ∈ g.rules, r.isLifted = true → r.name ∉ declaredNames raws := by
  obtain ⟨raws, hparses, hresolved, -⟩ := exists_compile_iff.mp ⟨g, h⟩
  rw [compile_of_cutInto hparses.cutInto] at h
  obtain ⟨statements, hreads, hg⟩ := consistsOf_of_ofStatements h
  have hfresh := hg.lifted_fresh
  rw [← declaredNames_of_read hreads] at hfresh
  exact ⟨raws, hparses.cutInto, hparses.wellFormed.isStatement, hparses.wellFormed.nodup,
    rules_of_ofStatements h, hg.nodup, hfresh⟩

/-- **Which names a grammar has.**  Only a name that two statements declare is reported as
declared twice.  In a grammar all names differ, brackets have none that a statement declares, and
in every rule, of a statement or of a bracket, the `j`-th bracket has the `j`-th name that is left
for it. -/
theorem names_spec (text : List Char) :
    (∀ fault, compile text = .error (.grammar fault) →
      fault.cause.kind = .duplicateIdentifier →
      ∃ before raw after name, Source.readStatements text = .ok (before ++ raw :: after) ∧
        name ∈ declaredNames before ∧ declaredName? raw = some name ∧
        fault.cause = .duplicateIdentifier name) ∧
    ∀ g, compile text = .ok g → ∃ raws, Source.readStatements text = .ok raws ∧
      (∀ raw ∈ raws, (declaredName? raw).isSome) ∧ (declaredNames raws).Nodup ∧
      g.lifted.Nodup ∧ (∀ name ∈ g.lifted, name ∉ declaredNames raws) ∧
      (∀ r ∈ g.rules, ∃ d, Defines raws r.name d) ∧
      ∀ name d, Defines raws name d → ∃ r, g.find? name = some r ∧
        r.brackets = (Definitions.brackets d).zipIdx.map fun x =>
          (x.1.1.word, bracketName (declaredNames raws) name x.2) := by
  constructor
  · intro fault h hkind
    obtain ⟨before, raw, after, name, hcut, hname⟩ :=
      (compile_eq_error_iff.mp h).declared_twice hkind
    exact ⟨before, raw, after, name, hcut.readStatements_eq, hname⟩
  · intro g h
    obtain ⟨raws, hcut, hstatements, hnodup, hrules, hnames, hfresh⟩ := names_of_compile h
    refine ⟨raws, hcut.readStatements_eq, fun raw hraw => ?_, hnodup,
      -- each rule is defined in some statement, and no bracket has a declared name
      hnames.sublist (List.filter_sublist.map _), fun name hname => ?_, ?_, ?_⟩
    · obtain ⟨name, d, hstatement⟩ := hstatements raw hraw
      rw [declaredName?_of_isStatement hstatement, Option.isSome_some]
    · obtain ⟨r, hr, rfl⟩ := List.mem_map.mp hname
      obtain ⟨hr, hlifted⟩ := List.mem_filter.mp hr
      exact hfresh r hr hlifted
    · rw [hrules]
      exact exists_defines hstatements
    · -- the numbers of the brackets in a definition are those left for its name
      intro name d hdefines
      obtain ⟨owner, ⟨r, hr, rfl, halts⟩, -⟩ := hdefines.exists_rule
      rw [← hrules] at hr
      refine ⟨r, Rule.find?_eq_some_of_nodup hnames hr, ?_⟩
      rw [Rule.brackets, halts, Definitions.brackets_lifted]

end Grammar

end AnyEngine

namespace Grammar

attribute [local instance] Pattern.Engine.verbatim

/-- The name of the bracket in the statement for lists. -/
theorem names_spec_listText :
    listGrammar.lifted.Nodup ∧ bracketName ["L", "I"] "L" 0 = "LSubDef1" := by
  obtain ⟨raws, hraws, -, -, hnodup, -, -, hbrackets⟩ :=
    (names_spec listText).2 listGrammar compile_listText
  rw [readStatements_listText] at hraws
  cases hraws
  have hread : Statement.read ['L', '=', '"', '(', '"', ',', '[', 'I', ',', '\x7b', 'I', '\x7d',
      ']', ',', '"', ')', '"'] = .ok (listStatements.head (List.cons_ne_nil _ _)) := by
    cbv
  have hstatement := isStatement_of_read hread (by cbv)
  obtain ⟨r, hr, hnames⟩ := hbrackets "L" _ (.statement List.mem_cons_self hstatement)
  cases hr
  have hnames' : [("optional", "LSubDef1")] = [("optional", bracketName ["L", "I"] "L" 0)] := hnames
  exact ⟨hnodup, (Prod.mk.inj (List.singleton_inj.mp hnames')).2.symm⟩

end Grammar

end Ebnf
