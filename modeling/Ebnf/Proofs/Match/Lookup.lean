import Ebnf.Proofs.Grammar.Sessions
import Ebnf.Proofs.Match.Termination

/-!
# Rules are found

However a builder was used before, the grammar that it makes has a rule under every name that one
of its rules refers to.  Matching looks up no other names than that of the rule to match and those,
so only the rule to match can be unknown.

## Main definitions

* `Grammar.tornSession` — a session with a failure midway that still makes a grammar.

## Main results

* `Builder.Sound.slots_eq_of_rules` — each rule stands under its own name.
* `Grammar.matchWithin_eq_unknownRule_iff` — which rules to match are unknown.
* `Grammar.closed_of_session` — **rules are found.**
-/

namespace Ebnf

open Match (applyRule)
open Builder (Operation empty)

theorem forall₂_of_mapM_eq_ok {ε α β : Type} {f : α → Except ε β} : ∀ {l : List α} {l' : List β},
    l.mapM f = .ok l' → List.Forall₂ (fun a a' => f a = .ok a') l l' := by
  intro l
  induction l with
  | nil =>
    intro l' h
    cases h
    exact .nil
  | cons a rest ih =>
    intro l' h
    rw [List.mapM_cons] at h
    -- the list is mapped if its head and its tail are
    rcases ha : f a with fault | a'
    · rw [ha] at h
      cases h
    · rw [ha] at h
      rcases hrest : rest.mapM f with fault | rest'
      · rw [hrest] at h
        cases h
      · rw [hrest] at h
        cases h
        exact .cons ha (ih hrest)

section AnyEngine

variable [Pattern.Engine]

namespace Builder

variable {b : Builder}

/-- A slot of a name has been filled with a rule. -/
theorem filled_of_rules {rules : List Rule} (h : b.rules = .ok rules) :
    List.Forall₂ (fun slot r => slot.2 = some r) b.slots rules := by
  have hmap := forall₂_of_mapM_eq_ok h
  refine hmap.imp fun slot r hslot => ?_
  obtain ⟨name, _ | r'⟩ := slot
  · cases hslot
  · cases hslot
    rfl

/-- Where all slots are filled, each has the rule of its name. -/
theorem Sound.slots_eq_of_rules (hb : b.Sound) {rules : List Rule} (h : b.rules = .ok rules) :
    b.slots = rules.map Rule.slot := by
  have hfilled := filled_of_rules h
  have hname : ∀ name r, (name, some r) ∈ b.slots → r.name = name := fun _ _ => hb.name_eq
  clear h
  generalize b.slots = slots at hfilled hname
  induction hfilled with
  | nil => rfl
  | @cons slot r slots rules hslot _ ih =>
    obtain ⟨name, rule⟩ := slot
    obtain rfl : rule = some r := hslot
    have hhead : r.name = name := hname name r List.mem_cons_self
    rw [List.map_cons, Rule.slot, hhead,
      ← ih fun name' r' hmem => hname name' r' (List.mem_cons_of_mem _ hmem)]

end Builder

namespace Grammar

variable {g : Grammar}

/-- Only the rule to match can be reported as unknown, and it is exactly if no rule of the grammar
has its name. -/
theorem matchWithin_eq_unknownRule_iff (nesting : Nat) (rule input name : String) {maxDepth : Int}
    (hdepth : 1 ≤ maxDepth) :
    g.matchWithin nesting rule input maxDepth = .error (.unknownRule name) ↔
      g.contains rule = false ∧ name = rule := by
  rw [matchWithin, if_neg (by omega)]
  rcases hcontains : g.contains rule
  · simp [eq_comm]
  · refine iff_of_false (fun h => ?_) (fun h => nomatch h.1)
    rw [if_neg (by simp)] at h
    split at h <;> cases h

/-- **Rules are found.** Whatever was done with the builder of a grammar, each of its rules is found
under its name, all references in it lead to rules, and in a match only the rule that is asked for
can be unknown, never one that another refers to. -/
theorem closed_of_session {declared : List String} {ops : List Operation}
    (h : ((empty declared).after ops).freeze = .ok g) :
    ((empty declared).after ops).slots = g.rules.map (fun r => (r.name, some r)) ∧
    g.names.Nodup ∧
    (∀ r ∈ g.rules, g.find? r.name = some r) ∧
    (∀ r ∈ g.rules, ∀ alt ∈ r.alts, ∀ atom ∈ alt, ∀ name,
      (atom = .reference name ∨ ∃ bracket, atom = .lifted bracket name) →
      ∃ r', g.find? name = some r' ∧ r'.name = name) ∧
    (∀ rule, g.contains rule = true → ∀ nesting depth input missing,
      applyRule g nesting depth rule input ≠ .error (.missingRule missing)) ∧
    ∀ nesting rule input (maxDepth : Int), 1 ≤ maxDepth →
      (∀ missing, g.matchWithin nesting rule input maxDepth ≠ .error (.missingRule missing)) ∧
      (∀ name, g.matchWithin nesting rule input maxDepth = .error (.unknownRule name) ↔
        g.contains rule = false ∧ name = rule) := by
  -- a builder that becomes a grammar has a rule in each slot, and no reference is open
  have hsound := ((empty declared).reaches_after ops).sound (Builder.sound_empty declared)
  obtain ⟨hrules, hunresolved, -⟩ := Builder.freeze_eq_ok h
  have hslots := hsound.slots_eq_of_rules hrules
  have hnodup : g.names.Nodup := by
    have horder := hsound.nodup_order
    rwa [Builder.order, hslots, Rule.map_fst_slot] at horder
  have hresolved : g.Resolved := Builder.unresolved_eq_nil_iff.mp hunresolved
  refine ⟨hslots, hnodup, fun r hr => Rule.find?_eq_some_of_nodup hnodup hr, ?_,
    fun rule hrule nesting depth input missing =>
      hresolved.applyRule_ne_missingRule input (contains_iff.mp hrule),
    fun nesting rule input maxDepth hdepth => ⟨fun missing hmissing => ?_, fun name =>
      matchWithin_eq_unknownRule_iff nesting rule input name hdepth⟩⟩
  · -- a reference and a bracket name their rules in the same way
    intro r hr alt halt atom hatom name hname
    have hreference : atom.reference? = some name := by
      rcases hname with rfl | ⟨bracket, rfl⟩
      · rfl
      · rfl
    have hmem : name ∈ r.references :=
      List.mem_filterMap.mpr ⟨atom, List.mem_flatten_of_mem halt hatom, hreference⟩
    obtain ⟨r', hr'⟩ := exists_find?_of_mem_names (hresolved r hr name hmem)
    exact ⟨r', hr', (mem_of_find?_eq_some hr').2⟩
  · -- a match is of a rule that exists or of one that does not
    rcases hcontains : g.contains rule
    · rw [(matchWithin_eq_unknownRule_iff nesting rule input rule hdepth).mpr ⟨hcontains, rfl⟩]
        at hmissing
      cases hmissing
    · -- in the first case the rules that others refer to exist as well
      rcases hresolved.matchWithin_eq nesting hcontains input hdepth with ⟨_, heq⟩ | ⟨_, heq⟩
      · rw [heq] at hmissing
        cases hmissing
      · rw [heq] at hmissing
        cases hmissing

end Grammar

end AnyEngine

namespace Grammar

attribute [local instance] Pattern.Engine.verbatim

/-- A session in which a statement fails after its bracket, whose rule is kept, and the rule of the
statement is then defined by hand. -/
def tornSession : List Operation :=
  [.statement ['Y', '=', '[', '"', 'a', '"', ']', ','],
    .define ⟨"Y", [[.lifted .optional "YSubDef1", .reference "Y"]], "Y", none, none⟩]

/-- The grammar of the session, in which adding a statement failed and its rule was then defined by
hand. -/
def tornGrammar : Grammar :=
  { rules := [
      ⟨"Y", [[.lifted .optional "YSubDef1", .reference "Y"]], "Y", none, none⟩,
      ⟨"YSubDef1", [[.terminal "a"]], "YSubDef1=\"a\"", some "Y", some "optional"⟩]
    nodeTypes := ["Y"] }

theorem freeze_tornSession : ((empty []).after tornSession).freeze = .ok tornGrammar := by
  have hb : (empty []).after tornSession
      = ⟨[], tornGrammar.rules.map Rule.slot, [("Y", 1)]⟩ := by
    cbv
  rw [hb]
  rfl

theorem closed_of_session_torn :
    ((empty []).after tornSession).freeze = .ok tornGrammar ∧
      (∀ nesting depth input missing,
        applyRule tornGrammar nesting depth "Y" input ≠ .error (.missingRule missing)) ∧
      tornGrammar.matchWithin 8 "X" "aa" 5 = .error (.unknownRule "X") := by
  obtain ⟨-, -, -, -, happly, hmatch⟩ := closed_of_session freeze_tornSession
  exact ⟨freeze_tornSession, happly "Y" (by decide),
    ((hmatch 8 "X" "aa" 5 (by decide)).2 "X").mpr ⟨by decide, rfl⟩⟩

end Grammar
end Ebnf
