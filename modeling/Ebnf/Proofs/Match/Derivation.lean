import Ebnf.Match
import Ebnf.Proofs.Compile
import Ebnf.Proofs.Match.Applications

/-!
# Trees are derivations

Read without regard to order and greed, the rules of a grammar say which texts they can stand for,
as those of a context-free grammar do: any alternative may be chosen, a bracket may be left out or
repeated as often as one likes.  A match finds one such derivation, and its tree shows it: every
node has the piece of the text that its rule stands for there, and its children are those of the
references in the alternative, in order and no others.

## Main definitions

* `Grammar.Derives`, `Alternative.Derives`, `Atom.Derives` — what the parts of a grammar can stand
  for, with the nodes that belong to it.
* `Grammar.Rounds` — rounds of a repetition.
* `Tree.IsDerivation` — a tree whose root stands for its value.

## Main results

* `Match.derives_applyRule` — what a rule takes, it can stand for.
* `Grammar.Derives.mem_walkAll` — the nodes below a derivation are derivations.
* `Grammar.matchWithin_isDerivation` — **the tree of a match is a derivation of what was taken.**
-/

namespace Ebnf

section AnyEngine

variable [Pattern.Engine]

/-! ### Derivations -/

mutual

/-- The rule with the name can stand for `piece` where `rest` follows, and `children` are the nodes
for the references in it. -/
inductive Grammar.Derives (g : Grammar) : String → List Char → List Char → List Tree → Prop
  /-- Any alternative of the rule will do. -/
  | rule {name : String} {r : Rule} {alt : Alternative} {piece rest : List Char}
    {children : List Tree} (hfind : g.find? name = some r) (halt : alt ∈ r.alts)
    (h : Alternative.Derives g alt piece rest children) : Grammar.Derives g name piece rest children

/-- The same for atoms one after the other, each of which stands for its part of the text. -/
inductive Alternative.Derives (g : Grammar) :
    List Atom → List Char → List Char → List Tree → Prop
  /-- Nothing stands for nothing. -/
  | nil (rest : List Char) : Alternative.Derives g [] [] rest []
  /-- The pieces of the atoms stand in the order of the atoms, and so do their nodes. -/
  | cons {atom : Atom} {atoms : List Atom} {piece more rest : List Char}
    {children others : List Tree} (h : Atom.Derives g atom piece (more ++ rest) children)
    (hrest : Alternative.Derives g atoms more rest others) :
    Alternative.Derives g (atom :: atoms) (piece ++ more) rest (children ++ others)

/-- The same for an atom, as the definition of its kind has it. -/
inductive Atom.Derives (g : Grammar) : Atom → List Char → List Char → List Tree → Prop
  /-- A terminal stands for its text. -/
  | terminal (text : String) (rest : List Char) :
    Atom.Derives g (.terminal text) text.toList rest []
  /-- A pattern stands for the piece that it takes from the start of the remaining text. -/
  | pattern {p : Pattern} {piece rest : List Char}
    (h : p.matchLength? (piece ++ rest) = some piece.length) :
    Atom.Derives g (.pattern p) piece rest []
  /-- A reference stands for what its rule does, with a node of its own for all of that. -/
  | reference {name : String} {piece rest : List Char} {children : List Tree}
    (h : Grammar.Derives g name piece rest children) :
    Atom.Derives g (.reference name) piece rest [.node name (String.ofList piece) children]
  /-- An optional bracket may be left out. -/
  | omitted (rule : String) (rest : List Char) :
    Atom.Derives g (.lifted .optional rule) [] rest []
  /-- An optional bracket may stand for what its rule does. -/
  | optional {rule : String} {piece rest : List Char} {children : List Tree}
    (h : Grammar.Derives g rule piece rest children) :
    Atom.Derives g (.lifted .optional rule) piece rest children
  /-- A grouping bracket stands for what its rule does. -/
  | group {rule : String} {piece rest : List Char} {children : List Tree}
    (h : Grammar.Derives g rule piece rest children) :
    Atom.Derives g (.lifted .group rule) piece rest children
  /-- A repeated bracket stands for any number of rounds. -/
  | repetition {rule : String} {piece rest : List Char} {children : List Tree}
    (h : Grammar.Rounds g rule piece rest children) :
    Atom.Derives g (.lifted .repetition rule) piece rest children

/-- The same for rounds of the rule with the name, none of which stands for nothing. -/
inductive Grammar.Rounds (g : Grammar) : String → List Char → List Char → List Tree → Prop
  /-- No round. -/
  | nil (rule : String) (rest : List Char) : Grammar.Rounds g rule [] rest []
  /-- A round and further ones. -/
  | cons {rule : String} {piece more rest : List Char} {children others : List Tree}
    (hne : piece ≠ []) (h : Grammar.Derives g rule piece (more ++ rest) children)
    (hrest : Grammar.Rounds g rule more rest others) :
    Grammar.Rounds g rule (piece ++ more) rest (children ++ others)

end

/-- The rule that is the type of the root can stand for the root's value where `rest` follows, with
the children as its nodes. -/
def Tree.IsDerivation (g : Grammar) (t : Tree) (rest : List Char) : Prop :=
  g.Derives t.type t.value.toList rest t.children

/-! ### What is taken -/

namespace Match

variable {g : Grammar}

omit [Pattern.Engine] in
theorem Span.covered_append (a b : Span) (text : List Char) :
    (a ++ b).covered text = a.covered text ++ b.covered (a.after text) :=
  List.take_add

omit [Pattern.Engine] in
theorem Span.after_append (a b : Span) (text : List Char) :
    (a ++ b).after text = b.after (a.after text) :=
  List.drop_drop.symm

/-- What was taken from the start of the text, if anything, is derived as stated. -/
def Outcome.Shows (o : Outcome) (text : List Char)
    (derives : List Char → List Char → List Tree → Prop) : Prop :=
  ∀ span, o = .ok (some span) → derives (span.covered text) (span.after text) span.children

/-- The rounds of a repetition, the last one apart, take something and so count as rounds. -/
theorem rounds_repeated {once : List Char → Outcome} {rule : String}
    (honce : ∀ text, (once text).Shows text (g.Derives rule)) {text : List Char} {span : Span}
    (h : repeated once text = .ok span) :
    g.Rounds rule (span.covered text) (span.after text) span.children := by
  -- induction on the length of the text, which every round but the last reduces
  induction hn : text.length using Nat.strongRecOn generalizing text span with
  | ind n ih =>
    rw [repeated] at h
    -- the three ways in which the first round can end
    split at h
    · cases h
    · cases h
      exact .nil rule text
    · next first hfirst =>
      split at h
      · next hlt =>
        split at h
        · cases h
        · next more hmore =>
          cases h
          -- a round that leaves less of the text has taken something
          have hne : first.covered text ≠ [] := by
            intro hnil
            have htext := first.covered_append_after text
            rw [hnil, List.nil_append] at htext
            rw [htext] at hlt
            exact Nat.lt_irrefl _ hlt
          have hround := honce text first hfirst
          have hrest := ih _ (hn ▸ hlt) hmore rfl
          rw [← more.covered_append_after (first.after text)] at hround
          rw [Span.covered_append, Span.after_append]
          exact .cons hne hround hrest
      · -- a round that takes nothing does not count
        cases h
        exact .nil rule text

variable {apply : Apply} {depth : Nat}
  (happly : ∀ depth name text, (apply depth name text).Shows text (g.Derives name))

include happly

theorem derives_evalAtom (atom : Atom) (text : List Char) :
    (evalAtom apply depth text atom).Shows text (Atom.Derives g atom) := by
  intro span h
  cases atom with
  -- a terminal is the piece itself
  | terminal expected =>
    rw [evalAtom] at h
    split at h
    · next hprefix =>
      cases h
      obtain ⟨rest, rfl⟩ := List.isPrefixOf_iff_prefix.mp hprefix
      have hlength : expected.length = expected.toList.length := String.length_toList.symm
      rw [Span.covered, Span.after, hlength, List.take_left, List.drop_left]
      exact .terminal expected rest
    · cases h
  -- the piece of a pattern is what the engine takes of the text that begins with it
  | pattern p =>
    rw [evalAtom] at h
    obtain ⟨n, hn, rfl⟩ := Option.map_eq_some_iff.mp (Except.ok.inj h)
    refine .pattern ?_
    rw [Span.covered_append_after, hn, Span.covered, List.length_take,
      Nat.min_eq_left (Pattern.le_length_of_matchLength? hn)]
  -- a reference stands for what its rule does
  | reference name =>
    rw [evalAtom] at h
    split at h
    · cases h
    · cases h
    · next taken htaken =>
      cases h
      exact .reference (happly depth name text taken htaken)
  | lifted bracket rule =>
    cases bracket with
    | group => exact .group (happly (depth + 1) rule text span h)
    -- a bracket that may fail is omitted then
    | optional =>
      rw [evalAtom] at h
      split at h
      · cases h
      · cases h
        exact .omitted rule text
      · next taken htaken =>
        cases h
        exact .optional (happly (depth + 1) rule text _ htaken)
    | repetition =>
      rw [evalAtom] at h
      split at h
      · cases h
      · next taken htaken =>
        cases h
        exact .repetition (rounds_repeated (happly (depth + 1) rule) htaken)

theorem derives_evalAtoms : ∀ (atoms : Alternative) (text : List Char),
    (evalAtoms apply depth atoms text).Shows text (Alternative.Derives g atoms) := by
  intro atoms
  induction atoms with
  -- no atoms stand for nothing
  | nil =>
    intro text span h
    cases h
    exact .nil text
  | cons atom rest ih =>
    intro text span h
    rw [evalAtoms] at h
    split at h
    · cases h
    · cases h
    · -- the piece is made up of those of the first atom and of the others
      next first hfirst =>
      split at h
      · cases h
      · cases h
      · next more hmore =>
        cases h
        have hatom := derives_evalAtom happly atom text first hfirst
        rw [← more.covered_append_after (first.after text)] at hatom
        rw [Span.covered_append, Span.after_append]
        exact .cons hatom (ih (first.after text) more hmore)

/-- What alternatives take, one of them can stand for. -/
theorem derives_evalAlternatives (alts : List Alternative) (text : List Char) :
    (evalAlternatives apply depth alts text).Shows text fun piece rest children =>
      ∃ alt ∈ alts, Alternative.Derives g alt piece rest children := by
  induction alts with
  | nil => intro span h; cases h
  | cons alt others ih =>
    intro span h
    rw [evalAlternatives] at h
    split at h
    · cases h
    · obtain ⟨alt', halt, hderives⟩ := ih span h
      exact ⟨alt', List.mem_cons_of_mem _ halt, hderives⟩
    · next taken htaken =>
      cases h
      exact ⟨alt, List.mem_cons_self, derives_evalAtoms happly alt text _ htaken⟩

omit happly

/-- What a rule takes, it can stand for. The choice of the first alternative and of the most rounds
only selects among derivations. -/
theorem derives_applyRule (g : Grammar) : ∀ (nesting depth : Nat) (name : String)
    (text : List Char), (applyRule g nesting depth name text).Shows text (g.Derives name) := by
  intro nesting
  induction nesting with
  -- without room for an application there is no result
  | zero =>
    intro depth name text span h
    cases depth with
    | zero => cases h
    | succ depth => cases h
  | succ nesting ih =>
    intro depth name text span h
    cases depth with
    | zero => cases h
    | succ depth =>
      rw [applyRule] at h
      split at h
      · cases h
      · -- the rule stands for what the alternative that matched does
        next r hfind =>
        obtain ⟨alt, halt, hderives⟩ := derives_evalAlternatives ih r.alts text span h
        exact .rule hfind halt hderives

end Match

/-! ### The nodes of a tree -/

omit [Pattern.Engine] in
theorem Tree.walkAll_append (ts us : List Tree) :
    Tree.walkAll (ts ++ us) = Tree.walkAll ts ++ Tree.walkAll us := by
  induction ts with
  | nil => rfl
  | cons t ts ih => rw [List.cons_append, Tree.walkAll, Tree.walkAll, ih, List.append_assoc]

/-- The tree is a derivation of its value where that stands in `piece`, which `rest` follows. -/
def Tree.IsDerivationIn (g : Grammar) (t : Tree) (piece rest : List Char) : Prop :=
  ∃ before after, piece = before ++ t.value.toList ++ after ∧ t.IsDerivation g (after ++ rest)

namespace Tree.IsDerivationIn

variable {g : Grammar} {t : Tree} {piece more rest : List Char}

theorem append_right (h : t.IsDerivationIn g piece (more ++ rest)) :
    t.IsDerivationIn g (piece ++ more) rest := by
  obtain ⟨before, after, rfl, hderives⟩ := h
  refine ⟨before, after ++ more, by simp only [List.append_assoc], ?_⟩
  rwa [List.append_assoc]

theorem append_left (h : t.IsDerivationIn g more rest) :
    t.IsDerivationIn g (piece ++ more) rest := by
  obtain ⟨before, after, rfl, hderives⟩ := h
  exact ⟨piece ++ before, after, by simp only [List.append_assoc], hderives⟩

/-- Nodes of two pieces, one after the other. -/
theorem of_mem_append {children others : List Tree}
    (h : ∀ t ∈ walkAll children, t.IsDerivationIn g piece (more ++ rest))
    (h' : ∀ t ∈ walkAll others, t.IsDerivationIn g more rest) :
    ∀ t ∈ walkAll (children ++ others), t.IsDerivationIn g (piece ++ more) rest := by
  intro t ht
  rw [walkAll_append] at ht
  rcases List.mem_append.mp ht with ht | ht
  · exact (h t ht).append_right
  · exact (h' t ht).append_left

end Tree.IsDerivationIn

section Nodes

variable {g : Grammar}

mutual

/-- The nodes below a derivation are derivations, each of the rule that is its type. -/
theorem Grammar.Derives.mem_walkAll : ∀ {name piece rest children},
    g.Derives name piece rest children →
    ∀ t ∈ Tree.walkAll children, t.IsDerivationIn g piece rest
  | _, _, _, _, .rule _ _ h => h.mem_walkAll

theorem Alternative.Derives.mem_walkAll : ∀ {alt piece rest children},
    Alternative.Derives g alt piece rest children →
    ∀ t ∈ Tree.walkAll children, t.IsDerivationIn g piece rest
  | _, _, _, _, .nil _ => nofun
  | _, _, _, _, .cons h hrest => Tree.IsDerivationIn.of_mem_append h.mem_walkAll hrest.mem_walkAll

theorem Atom.Derives.mem_walkAll : ∀ {atom piece rest children},
    Atom.Derives g atom piece rest children →
    ∀ t ∈ Tree.walkAll children, t.IsDerivationIn g piece rest
  | _, _, _, _, .terminal _ _ => nofun
  | _, _, _, _, .pattern _ => nofun
  -- the node of a reference is the only one that is new; those below it come from its rule
  | _, piece, rest, _, @Atom.Derives.reference _ _ name _ _ children h => by
    intro t ht
    rw [Tree.walkAll, Tree.walkAll, List.append_nil, Tree.walk] at ht
    rcases List.mem_cons.mp ht with rfl | ht
    · refine ⟨[], [], ?_, ?_⟩
      · rw [Tree.value, String.toList_ofList, List.nil_append, List.append_nil]
      · rw [Tree.IsDerivation, Tree.value, String.toList_ofList]
        exact h
    · exact h.mem_walkAll t ht
  | _, _, _, _, .omitted _ _ => nofun
  | _, _, _, _, .optional h => h.mem_walkAll
  | _, _, _, _, .group h => h.mem_walkAll
  | _, _, _, _, .repetition h => h.mem_walkAll

theorem Grammar.Rounds.mem_walkAll : ∀ {name piece rest children},
    g.Rounds name piece rest children →
    ∀ t ∈ Tree.walkAll children, t.IsDerivationIn g piece rest
  | _, _, _, _, .nil _ _ => nofun
  | _, _, _, _, .cons _ h hrest => Tree.IsDerivationIn.of_mem_append h.mem_walkAll hrest.mem_walkAll

end

/-- Every node of a derivation is a derivation of its value where that stands. -/
theorem Tree.IsDerivation.mem_walk {t : Tree} {rest : List Char} (h : t.IsDerivation g rest) :
    ∀ u ∈ t.walk, u.IsDerivationIn g t.value.toList rest := by
  obtain ⟨type, value, children⟩ := t
  intro u hu
  rcases List.mem_cons.mp hu with rfl | hu
  · exact ⟨[], [], by rw [List.nil_append, List.append_nil], h⟩
  · exact Grammar.Derives.mem_walkAll h u hu

end Nodes

/-! ### Matches -/

namespace Grammar

variable {g : Grammar}

/-- A result of a match comes from the application of the rule. -/
theorem exists_of_matchWithin_eq_ok {nesting : Nat} {rule input : String} {maxDepth : Int}
    {result : MatchResult} (h : g.matchWithin nesting rule input maxDepth = .ok result) :
    ∃ taken, Match.applyRule g nesting maxDepth.toNat rule input.toList = .ok taken ∧
      result = resultOf rule input.toList taken := by
  rw [matchWithin] at h
  split at h
  · cases h
  · split at h
    · cases h
    · split at h
      · cases h
      · cases h
      · cases h
      · next taken htaken =>
        cases h
        exact ⟨taken, htaken, rfl⟩

/-- **The tree of a match is a derivation of what was taken.**  If a rule matches, the value of the
tree and the remainder make up the input, the root is a derivation of its value, and so is every
node, each where its value stands in the input.  If the rule does not match, nothing is taken and
the tree is a root alone. -/
theorem matchWithin_isDerivation {nesting : Nat} {rule input : String} {maxDepth : Int}
    {result : MatchResult} (h : g.matchWithin nesting rule input maxDepth = .ok result) :
    (result.success = true →
      result.tree.type = rule ∧ input = result.tree.value ++ result.remainder ∧
        result.tree.IsDerivation g result.remainder.toList ∧
        ∀ t ∈ result.tree.walk,
          t.IsDerivationIn g result.tree.value.toList result.remainder.toList) ∧
    (result.success = false → result.remainder = input ∧ result.tree = .node rule "" []) := by
  -- a failed match takes nothing, and its tree is a root alone
  obtain ⟨taken, happly, rfl⟩ := exists_of_matchWithin_eq_ok h
  cases taken with
  | none => exact ⟨nofun, fun _ => ⟨String.ofList_toList, rfl⟩⟩
  | some span =>
    refine ⟨fun _ => ?_, nofun⟩
    -- the root is a derivation of what was taken, and so are the nodes below it
    have hroot : (span.toTree rule input.toList).IsDerivation g
        (String.ofList (span.after input.toList)).toList := by
      rw [Tree.IsDerivation, Match.Span.toTree, Tree.value, String.toList_ofList,
        String.toList_ofList]
      exact Match.derives_applyRule g nesting _ rule input.toList span happly
    -- what was taken and what remains are the text again
    refine ⟨rfl, ?_, hroot, hroot.mem_walk⟩
    change input
      = String.ofList (span.covered input.toList) ++ String.ofList (span.after input.toList)
    rw [← String.ofList_append, span.covered_append_after, String.ofList_toList]

end Grammar

end AnyEngine

namespace Grammar

attribute [local instance] Pattern.Engine.verbatim

theorem matchWithin_isDerivation_listGrammar :
    ∃ result, listGrammar.matchWithin 20 "L" "((x)x)y" 5 = .ok result ∧
      result.tree.IsDerivation listGrammar ['y'] ∧
      (Tree.node "L" "(x)" [.node "I" "x" []]).IsDerivationIn listGrammar
        result.tree.value.toList ['y'] := by
  have h : listGrammar.matchWithin 20 "L" "((x)x)y" 5 = .ok ⟨true, "y",
      .node "L" "((x)x)" [
        .node "I" "(x)" [.node "L" "(x)" [.node "I" "x" []]], .node "I" "x" []]⟩ := by
    cbv
  obtain ⟨-, -, hroot, hnodes⟩ := (matchWithin_isDerivation h).1 rfl
  exact ⟨_, h, hroot, hnodes _ (.tail _ (.tail _ (.head _)))⟩

end Grammar

end Ebnf
