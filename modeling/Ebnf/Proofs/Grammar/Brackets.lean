import Ebnf.Proofs.Compile
import Mathlib.Data.List.Perm.Basic

/-!
# Brackets and their rules

In a grammar of a text the brackets that stand in the rules and the rules made of brackets are the
same thing twice: every bracket has a rule, every such rule has one bracket, and the rule comes
later than the one its bracket stands in.  So following brackets from rule to rule leads down the
list and comes to an end.

## Main definitions

* `Rule.brackets` — the brackets that stand in a rule, by the kind and the name of their rules.
* `Rule.InOrder` — every bracket stands before its rule.
* `Rule.rank` — how far a rule is from the end of the list.

## Main results

* `Grammar.ConsistsOf.brackets_perm` — **there is one bracket for every lifted rule.**
* `Grammar.ConsistsOf.rank_lt` — **the rule of a bracket has a lower rank.**
-/

namespace Ebnf

variable [Pattern.Engine]

/-! ### Brackets -/

/-- The kind and the name of the rule of a bracket. -/
def Atom.bracket? : Atom → Option (String × String)
  | .lifted bracket rule => some (bracket.word, rule)
  | .terminal _ | .pattern _ | .reference _ => none

/-- The brackets in alternatives. -/
def bracketsIn (alts : List Alternative) : List (String × String) :=
  alts.flatten.filterMap Atom.bracket?

namespace Rule

/-- The brackets in a rule: for each the word that describes it and the name of its rule. -/
def brackets (r : Rule) : List (String × String) := bracketsIn r.alts

/-- The bracket that the rule was made of. -/
def bracket? (r : Rule) : Option (String × String) := r.kind.map fun kind => (kind, r.name)

theorem name_of_mem_filterMap_bracket? {rules : List Rule} {p : String × String}
    (h : p ∈ rules.filterMap bracket?) : p.2 ∈ rules.map (·.name) := by
  obtain ⟨r, hr, hp⟩ := List.mem_filterMap.mp h
  obtain ⟨kind, -, rfl⟩ := Option.map_eq_some_iff.mp hp
  exact List.mem_map_of_mem hr

end Rule

@[simp] theorem bracketsIn_cons (alt : Alternative) (rest : List Alternative) :
    bracketsIn (alt :: rest) = alt.filterMap Atom.bracket? ++ bracketsIn rest := by
  rw [bracketsIn, List.flatten_cons, List.filterMap_append, bracketsIn]

/-- Two lists of brackets and rules that fit each other, one after the other. -/
theorem perm_append_brackets {here there : List (String × String)} {rules others : List Rule}
    (h : (here ++ rules.flatMap Rule.brackets).Perm (rules.filterMap Rule.bracket?))
    (h' : (there ++ others.flatMap Rule.brackets).Perm (others.filterMap Rule.bracket?)) :
    ((here ++ there) ++ (rules ++ others).flatMap Rule.brackets).Perm
      ((rules ++ others).filterMap Rule.bracket?) := by
  rw [List.flatMap_append, List.filterMap_append]
  refine List.Perm.trans ?_ (h.append h')
  -- only the brackets there and those in the rules here change places
  simp only [List.append_assoc]
  refine List.Perm.append_left here ?_
  rw [← List.append_assoc, ← List.append_assoc]
  exact List.perm_append_comm.append_right _

variable {owner : String}

mutual

theorem Primary.LiftsTo.brackets_perm : ∀ {parent p atom rules},
    Primary.LiftsTo owner parent p atom rules →
    (atom.bracket?.toList ++ rules.flatMap Rule.brackets).Perm (rules.filterMap Rule.bracket?)
  | _, _, _, _, .terminal _ _ => .nil
  | _, _, _, _, .pattern _ _ => .nil
  | _, _, _, _, .name _ _ => .nil
  | _, _, _, _, .bracketed h => h.brackets_perm.cons _

theorem Primary.AllLiftTo.brackets_perm : ∀ {parent ps atoms rules},
    Primary.AllLiftTo owner parent ps atoms rules →
    (atoms.filterMap Atom.bracket? ++ rules.flatMap Rule.brackets).Perm
      (rules.filterMap Rule.bracket?)
  | _, _, _, _, .nil _ => .nil
  | _, _, _, _, @Primary.AllLiftTo.cons _ _ _ _ atom _ _ atoms _ hp hrest => by
    have hsplit : (atom :: atoms).filterMap Atom.bracket?
        = atom.bracket?.toList ++ atoms.filterMap Atom.bracket? := by
      cases hb : atom.bracket? <;> simp [hb]
    rw [hsplit]
    exact perm_append_brackets hp.brackets_perm hrest.brackets_perm

theorem Definitions.LiftTo.brackets_perm : ∀ {parent d alts rules},
    Definitions.LiftTo owner parent d alts rules →
    (bracketsIn alts ++ rules.flatMap Rule.brackets).Perm (rules.filterMap Rule.bracket?)
  | _, _, _, _, .nil _ => .nil
  | _, _, _, _, .cons halt hrest => by
    rw [bracketsIn_cons]
    exact perm_append_brackets halt.brackets_perm hrest.brackets_perm

end

/-- The brackets in definitions have their rules among those made of the definitions. -/
theorem Definitions.LiftTo.name_mem {parent : String} {d : List (List Primary)}
    {alts : List Alternative} {rules : List Rule} (h : Definitions.LiftTo owner parent d alts rules)
    {p : String × String} (hp : p ∈ bracketsIn alts) : p.2 ∈ rules.map (·.name) :=
  Rule.name_of_mem_filterMap_bracket?
    (h.brackets_perm.subset (List.mem_append_left _ hp))

/-! ### The order of rules -/

namespace Rule

/-- Every bracket stands before its rule, which is therefore reached from the rules before it. -/
def InOrder : List Rule → Prop
  | [] => True
  | r :: rest => (∀ p ∈ r.brackets, p.2 ∈ rest.map (·.name)) ∧ InOrder rest

theorem InOrder.append : ∀ {rules others : List Rule}, InOrder rules → InOrder others →
    InOrder (rules ++ others) := by
  intro rules
  induction rules with
  | nil => exact fun _ h => h
  | cons r rest ih =>
    intro others h h'
    have hsub : rest.map (·.name) ⊆ (rest ++ others).map (·.name) :=
      List.map_subset _ (List.subset_append_left _ _)
    exact ⟨fun p hp => hsub (h.1 p hp), ih h.2 h'⟩

theorem InOrder.name_mem {rules : List Rule} (h : InOrder rules) {r : Rule} (hr : r ∈ rules)
    {p : String × String} (hp : p ∈ r.brackets) : p.2 ∈ rules.map (·.name) := by
  induction rules with
  | nil => cases hr
  | cons first rest ih =>
    rcases List.mem_cons.mp hr with rfl | hr
    · exact List.mem_cons_of_mem _ (h.1 p hp)
    · exact List.mem_cons_of_mem _ (ih h.2 hr)

theorem InOrder.flatten {blocks : List (List Rule)} (h : ∀ block ∈ blocks, InOrder block) :
    InOrder blocks.flatten := by
  induction blocks with
  | nil => trivial
  | cons block rest ih =>
    exact (h block List.mem_cons_self).append (ih fun b hb => h b (List.mem_cons_of_mem _ hb))

/-- The number of rules from the one with the name on. -/
def rank (rules : List Rule) (name : String) : Nat :=
  (rules.dropWhile fun r => r.name ≠ name).length

theorem rank_le_length (rules : List Rule) (name : String) : rank rules name ≤ rules.length :=
  (List.dropWhile_suffix _).length_le

theorem rank_cons_self (r : Rule) (rest : List Rule) :
    rank (r :: rest) r.name = rest.length + 1 := by
  simp [rank]

theorem rank_cons_of_ne {r : Rule} {name : String} (h : r.name ≠ name) (rest : List Rule) :
    rank (r :: rest) name = rank rest name := by
  simp [rank, h]

theorem rank_pos {rules : List Rule} {name : String} (h : name ∈ rules.map (·.name)) :
    0 < rank rules name := by
  induction rules with
  | nil => cases h
  | cons r rest ih =>
    by_cases hname : r.name = name
    · subst hname
      rw [rank_cons_self]
      exact Nat.succ_pos _
    · rw [rank_cons_of_ne hname]
      exact ih ((List.mem_cons.mp h).resolve_left (Ne.symm hname))

/-- In order, the rule of a bracket has a lower rank than the rule in which the bracket stands. -/
theorem InOrder.rank_lt {rules : List Rule} (h : InOrder rules)
    (hnodup : (rules.map (·.name)).Nodup) {r : Rule} (hr : r ∈ rules) {p : String × String}
    (hp : p ∈ r.brackets) : rank rules p.2 < rank rules r.name := by
  induction rules with
  | nil => cases hr
  | cons first rest ih =>
    obtain ⟨hfirst, hnodup⟩ := List.nodup_cons.mp hnodup
    have hne : ∀ name ∈ rest.map (·.name), first.name ≠ name := by
      rintro _ hmem rfl
      exact hfirst hmem
    -- the first rule has the highest rank, and those after it keep theirs
    rcases List.mem_cons.mp hr with rfl | hr
    · rw [rank_cons_of_ne (hne p.2 (h.1 p hp)), rank_cons_self]
      exact Nat.lt_succ_of_le (rank_le_length _ _)
    · rw [rank_cons_of_ne (hne p.2 (h.2.name_mem hr hp)),
        rank_cons_of_ne (hne r.name (List.mem_map_of_mem hr))]
      exact ih h.2 hnodup hr

end Rule

mutual

theorem Primary.LiftsTo.inOrder : ∀ {parent p atom rules},
    Primary.LiftsTo owner parent p atom rules → Rule.InOrder rules
  | _, _, _, _, .terminal _ _ => trivial
  | _, _, _, _, .pattern _ _ => trivial
  | _, _, _, _, .name _ _ => trivial
  | _, _, _, _, .bracketed h => ⟨fun _ hp => h.name_mem hp, h.inOrder⟩

theorem Primary.AllLiftTo.inOrder : ∀ {parent ps atoms rules},
    Primary.AllLiftTo owner parent ps atoms rules → Rule.InOrder rules
  | _, _, _, _, .nil _ => trivial
  | _, _, _, _, .cons hp hrest => hp.inOrder.append hrest.inOrder

theorem Definitions.LiftTo.inOrder : ∀ {parent d alts rules},
    Definitions.LiftTo owner parent d alts rules → Rule.InOrder rules
  | _, _, _, _, .nil _ => trivial
  | _, _, _, _, .cons halt hrest => halt.inOrder.append hrest.inOrder

end

/-! ### Grammars -/

namespace Statement.Makes

variable {s : Statement} {rules : List Rule}

theorem brackets_perm (h : s.Makes rules) :
    (rules.flatMap Rule.brackets).Perm (rules.filterMap Rule.bracket?) := by
  obtain ⟨alts, below, hlift, rfl⟩ := h
  exact hlift.brackets_perm

theorem inOrder (h : s.Makes rules) : Rule.InOrder rules := by
  obtain ⟨alts, below, hlift, rfl⟩ := h
  exact ⟨fun _ hp => hlift.name_mem hp, hlift.inOrder⟩

end Statement.Makes

namespace Grammar.ConsistsOf

variable {g : Grammar} {statements : List Statement}

/-- **There is one bracket for every lifted rule.** Brackets are found in the alternatives and rules
in the grammar, in different orders. -/
theorem brackets_perm (h : g.ConsistsOf statements) :
    (g.rules.flatMap Rule.brackets).Perm (g.rules.filterMap Rule.bracket?) := by
  obtain ⟨blocks, hblocks, hrules⟩ := h.blocks
  rw [hrules]
  clear h hrules
  induction hblocks with
  | nil => exact .nil
  | cons hmakes _ ih =>
    rw [List.flatten_cons, List.flatMap_append, List.filterMap_append]
    exact hmakes.brackets_perm.append ih

theorem inOrder (h : g.ConsistsOf statements) : Rule.InOrder g.rules := by
  obtain ⟨blocks, hblocks, hrules⟩ := h.blocks
  rw [hrules]
  refine Rule.InOrder.flatten fun block hblock => ?_
  obtain ⟨s, -, hmakes⟩ := exists_of_forall₂_right hblocks hblock
  exact hmakes.inOrder

/-- **The rule of a bracket has a lower rank.** Brackets alone therefore lead only so far, whichever
way is taken. -/
theorem rank_lt (h : g.ConsistsOf statements) {r : Rule} (hr : r ∈ g.rules) {p : String × String}
    (hp : p ∈ r.brackets) : Rule.rank g.rules p.2 < Rule.rank g.rules r.name :=
  h.inOrder.rank_lt h.nodup hr hp

end Grammar.ConsistsOf

end Ebnf
