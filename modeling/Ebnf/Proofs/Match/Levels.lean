import Ebnf.Proofs.Match.Derivation

/-!
# The levels of a tree

Only a reference makes a node, and only a reference goes a level deeper; the nodes that the rule of
a bracket makes are handed on to the rule around it.  So below the root of a tree all nodes are of
rules that are referred to by name, and a tree has no more levels than a match may have.

## Main definitions

* `Tree.Grows` — a tree with so many levels, in which the nodes below the root have allowed types.
* `Grammar.IsOfStatement` — a name has a rule, which is that of a statement and not of a bracket.

## Main results

* `Tree.Grows.length_lt`, `Tree.Grows.allowed_of_mem_tail` — paths and nodes of such a tree.
* `Match.grows_applyRule` — the trees that a rule makes.
* `Grammar.matchWithin_levels` — **brackets make no nodes, and levels are limited.**
-/

namespace Ebnf

open Match (Apply Outcome Span applyRule evalAtom evalAtoms evalAlternatives)

namespace Tree

/-! ### Trees with levels -/

/-- The tree has at most so many levels, and the types of the nodes below the root are allowed. -/
def Grows (allowed : String → Prop) : (levels : Nat) → Tree → Prop
  | 0, _ => False
  | levels + 1, t => ∀ child ∈ t.children, allowed child.type ∧ child.Grows allowed levels

variable {allowed : String → Prop}

theorem mem_walkAll_iff {node : Tree} {ts : List Tree} :
    node ∈ walkAll ts ↔ ∃ t ∈ ts, node ∈ t.walk := by
  induction ts with
  | nil => simp [walkAll]
  | cons t rest ih => simp [walkAll, ih]

/-- A path from the root has no more nodes than there are levels. -/
theorem Grows.length_lt : ∀ {path : List Tree} {levels : Nat} {t : Tree}, t.Grows allowed levels →
    List.IsChain (fun t child => child ∈ t.children) (t :: path) → path.length < levels := by
  intro path
  induction path with
  | nil =>
    intro levels t h _
    cases levels with
    | zero => exact h.elim
    | succ levels => exact Nat.succ_pos levels
  | cons child rest ih =>
    intro levels t h hpath
    cases levels with
    | zero => exact h.elim
    | succ levels =>
      obtain ⟨hchild, hrest⟩ := List.isChain_cons_cons.mp hpath
      exact Nat.succ_lt_succ (ih (h child hchild).2 hrest)

/-- The nodes below the root have allowed types; the root itself has that of the rule that is
matched. -/
theorem Grows.allowed_of_mem_tail : ∀ {levels : Nat} {t : Tree}, t.Grows allowed levels →
    ∀ node ∈ t.walk.tail, allowed node.type := by
  intro levels
  induction levels with
  | zero => exact fun h => h.elim
  | succ levels ih =>
    intro t h node hnode
    rw [walk_eq, List.tail_cons, mem_walkAll_iff] at hnode
    obtain ⟨child, hchild, hnode⟩ := hnode
    obtain ⟨hallowed, hgrows⟩ := h child hchild
    rw [walk_eq] at hnode
    rcases List.mem_cons.mp hnode with rfl | hbelow
    · exact hallowed
    · exact ih hgrows node (by rwa [walk_eq, List.tail_cons])

end Tree

section AnyEngine

variable [Pattern.Engine]

/-! ### The nodes that are made -/

namespace Match

/-- What was taken, if anything, has nodes of allowed types that have at most so many levels. -/
def Outcome.Bears (o : Outcome) (allowed : String → Prop) (levels : Nat) : Prop :=
  ∀ span, o = .ok (some span) →
    ∀ child ∈ span.children, allowed child.type ∧ child.Grows allowed levels

variable {allowed : String → Prop}

omit [Pattern.Engine] in
theorem children_append (a b : Span) : (a ++ b).children = a.children ++ b.children := rfl

omit [Pattern.Engine] in
/-- The nodes of a repetition are those of its rounds. -/
theorem bears_repeated {once : List Char → Outcome} {levels : Nat}
    (honce : ∀ text, (once text).Bears allowed levels) {text : List Char} {span : Span}
    (h : repeated once text = .ok span) :
    ∀ child ∈ span.children, allowed child.type ∧ child.Grows allowed levels := by
  -- induction on the length of the text, which every round but the last reduces
  induction hn : text.length using Nat.strongRecOn generalizing text span with
  | ind n ih =>
    rw [repeated] at h
    -- the three ways in which the first round can end
    split at h
    · cases h
    · cases h
      exact List.forall_mem_nil _
    · next first hfirst =>
      split at h
      · next hlt =>
        split at h
        · cases h
        · next more hmore =>
          cases h
          rw [children_append]
          exact List.forall_mem_append.mpr
            ⟨honce text first hfirst, ih _ (hn ▸ hlt) hmore rfl⟩
      · cases h
        exact List.forall_mem_nil _

variable {apply : Apply} {depth : Nat}
  (happly : ∀ depth name text span, apply depth name text = .ok (some span) →
    (span.toTree name text).Grows allowed depth)

include happly

theorem bears_evalAtom {atom : Atom} (hatom : ∀ name, atom = .reference name → allowed name)
    (text : List Char) : (evalAtom apply depth text atom).Bears allowed depth := by
  -- the node of a bracket's rule has one level more than the nodes that it hands on
  have hlifted : ∀ rule text, (apply (depth + 1) rule text).Bears allowed depth :=
    fun rule text => happly (depth + 1) rule text
  intro span h
  cases atom with
  -- only a reference makes a node of its own
  | terminal expected =>
    rw [evalAtom] at h
    split at h
    · cases h
      exact List.forall_mem_nil _
    · cases h
  | pattern p =>
    rw [evalAtom] at h
    obtain ⟨n, -, rfl⟩ := Option.map_eq_some_iff.mp (Except.ok.inj h)
    exact List.forall_mem_nil _
  | reference name =>
    rw [evalAtom] at h
    split at h
    · cases h
    · cases h
    · next taken htaken =>
      cases h
      intro child hchild
      obtain rfl := List.mem_singleton.mp hchild
      exact ⟨hatom name rfl, happly depth name text taken htaken⟩
  | lifted bracket rule =>
    cases bracket with
    | group => exact hlifted rule text span h
    | optional =>
      rw [evalAtom] at h
      split at h
      · cases h
      · cases h
        exact List.forall_mem_nil _
      · next taken htaken =>
        cases h
        exact hlifted rule text _ htaken
    | repetition =>
      rw [evalAtom] at h
      split at h
      · cases h
      · next taken htaken =>
        cases h
        exact bears_repeated (hlifted rule) htaken

theorem bears_evalAtoms : ∀ {atoms : Alternative},
    (∀ atom ∈ atoms, ∀ name, atom = .reference name → allowed name) → ∀ text,
    (evalAtoms apply depth atoms text).Bears allowed depth := by
  intro atoms
  induction atoms with
  -- an alternative without atoms makes no nodes
  | nil =>
    intro _ text span h
    cases h
    exact List.forall_mem_nil _
  | cons atom rest ih =>
    intro hatoms text span h
    obtain ⟨hatom, hrest⟩ := List.forall_mem_cons.mp hatoms
    rw [evalAtoms] at h
    split at h
    · cases h
    · cases h
    · next first hfirst =>
      split at h
      · cases h
      · cases h
      · -- the nodes are those of the first atom and those of the others
        next more hmore =>
        cases h
        rw [children_append]
        exact List.forall_mem_append.mpr
          ⟨bears_evalAtom happly hatom text first hfirst, ih hrest _ more hmore⟩

theorem bears_evalAlternatives {alts : List Alternative}
    (halts : ∀ atom ∈ alts.flatten, ∀ name, atom = .reference name → allowed name)
    (text : List Char) : (evalAlternatives apply depth alts text).Bears allowed depth := by
  induction alts with
  | nil => intro span h; cases h
  | cons alt rest ih =>
    intro span h
    rw [List.flatten_cons] at halts
    obtain ⟨halt, hrest⟩ := List.forall_mem_append.mp halts
    rw [evalAlternatives] at h
    split at h
    · cases h
    · exact ih hrest span h
    · next taken htaken =>
      cases h
      exact bears_evalAtoms happly halt text _ htaken

omit happly

/-- If all references are allowed, a rule makes a tree with no more levels than are left. -/
theorem grows_applyRule {g : Grammar}
    (hrefs : ∀ r ∈ g.rules, ∀ atom ∈ r.alts.flatten, ∀ name, atom = .reference name →
      allowed name) : ∀ (nesting depth : Nat) (name : String) (text : List Char) (span : Span),
    applyRule g nesting depth name text = .ok (some span) →
    (span.toTree name text).Grows allowed depth := by
  intro nesting
  induction nesting with
  -- without room for an application there is no tree
  | zero =>
    intro depth name text span h
    cases depth with
    | zero => cases h
    | succ depth => cases h
  | succ nesting ih =>
    intro depth name text span h
    cases depth with
    | zero => cases h
    | succ depth =>
      rw [applyRule] at h
      split at h
      · cases h
      · -- the nodes below the root are those of the alternative that matched
        next r hfind =>
        have hr : r ∈ g.rules := List.mem_of_find?_eq_some hfind
        exact bears_evalAlternatives ih (hrefs r hr) text span h

end Match

/-! ### Matches -/

namespace Grammar

variable {g : Grammar}

/-- There is a rule with the name, and it is not that of a bracket. -/
def IsOfStatement (g : Grammar) (name : String) : Prop :=
  ∃ r, g.find? name = some r ∧ r.isLifted = false

/-- **Brackets make no nodes, and levels are limited.**  If only rules of statements are referred
to by name, the tree of a match has the rule to match at its root and rules of statements
everywhere else, and no path from the root has more nodes than the match may have levels. -/
theorem matchWithin_levels
    (hrefs : ∀ r ∈ g.rules, ∀ atom ∈ r.alts.flatten, ∀ name, atom = .reference name →
      g.IsOfStatement name) {nesting : Nat} {rule input : String} {maxDepth : Int}
    {result : MatchResult} (h : g.matchWithin nesting rule input maxDepth = .ok result)
    (hsuccess : result.success = true) :
    result.tree.type = rule ∧
    (∀ node ∈ result.tree.walk.tail, g.IsOfStatement node.type) ∧
    ∀ path, List.IsChain (fun t child => child ∈ Tree.children t) (result.tree :: path) →
      ((result.tree :: path).length : Int) ≤ maxDepth := by
  obtain ⟨taken, happly, rfl⟩ := exists_of_matchWithin_eq_ok h
  cases taken with
  | none => cases hsuccess
  | some span =>
    have hgrows := Match.grows_applyRule hrefs nesting _ rule input.toList span happly
    refine ⟨rfl, hgrows.allowed_of_mem_tail, fun path hpath => ?_⟩
    have hlt : path.length < maxDepth.toNat := hgrows.length_lt hpath
    rw [List.length_cons]
    omega

end Grammar

end AnyEngine

namespace Grammar

attribute [local instance] Pattern.Engine.verbatim

theorem matchWithin_levels_listGrammar :
    ∃ result, listGrammar.matchWithin 20 "LSubDef1" "x(x)" 5 = .ok result ∧
      result.tree.type = "LSubDef1" ∧
      (∀ node ∈ result.tree.walk.tail, listGrammar.IsOfStatement node.type) ∧
      ∀ path, List.IsChain (fun t child => child ∈ Tree.children t) (result.tree :: path) →
        ((result.tree :: path).length : Int) ≤ 5 := by
  -- the rules of the grammar refer to the two statements alone
  have hrefs : ∀ r ∈ listGrammar.rules, ∀ atom ∈ r.alts.flatten, ∀ name,
      atom = .reference name → listGrammar.IsOfStatement name := by
    have hall : ∀ r ∈ listGrammar.rules, ∀ atom ∈ r.alts.flatten,
        (match atom with | .reference name => name == "I" || name == "L" | _ => true) = true := by
      decide
    rintro r hr _ hatom name rfl
    have hname : name = "I" ∨ name = "L" := by simpa using hall r hr _ hatom
    rcases hname with rfl | rfl
    · exact ⟨_, rfl, rfl⟩
    · exact ⟨_, rfl, rfl⟩
  -- one bracket within another adds no level of its own
  have h : listGrammar.matchWithin 20 "LSubDef1" "x(x)" 5 = .ok ⟨true, "",
      .node "LSubDef1" "x(x)" [
        .node "I" "x" [], .node "I" "(x)" [.node "L" "(x)" [.node "I" "x" []]]]⟩ := by
    cbv
  exact ⟨_, h, matchWithin_levels hrefs h rfl⟩

end Grammar

end Ebnf
