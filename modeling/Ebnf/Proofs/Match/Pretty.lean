import Mathlib.Data.List.Basic
import Ebnf.Match.Tree
import Ebnf.Proofs.Description.Printable
import Ebnf.Proofs.NodeTypes
import Ebnf.Proofs.Text.Quoted

/-!
# Reading printed trees

A tree is printed with a line for each node, and the lines can be told apart: a quoted value has no
newline in it.  A line tells its level by the spaces before the type, since a type begins with none,
and its type by the first space after it.  Where a level goes down again the children of a node end.
So a printed tree determines the tree, whatever its values look like.

## Main definitions

* `Tree.Entry` — what is printed in a line: a level, a type and a value.
* `Tree.entries` — the entries of a tree.
* `Tree.HasPlainTypes` — no type in the tree has a blank.

## Main results

* `Tree.Entry.line_injective` — a line determines its entry.
* `Tree.entriesAll_append_inj` — entries determine their trees, and where these end.
* `Tree.pretty_injective` — **printed trees determine the trees.**
* `Grammar.hasPlainTypes_of_matchWithin` — no type in a tree of a match has a blank.
-/

namespace Ebnf

open Text (quote isBlank)
open Text.Quoted (encode)

namespace Tree

/-! ### Lines -/

/-- What is printed in a line: the level, type and value of a node. -/
structure Entry where
  /-- The level of the node. -/
  level : Nat
  /-- The type of the node. -/
  type : String
  /-- The value of the node. -/
  value : String
  deriving DecidableEq, Repr

namespace Entry

/-- The line of an entry, as the tree prints it with the usual indentation. -/
def line (e : Entry) : List Char :=
  List.replicate (2 * e.level) ' ' ++ (e.type.toList ++ ':' :: ' ' :: encode e.value.toList)

/-- No character of the type is blank, so that the type of an entry can be told from what follows.
-/
def HasPlainType (e : Entry) : Prop := ∀ c ∈ e.type.toList, isBlank c = false

theorem HasPlainType.notMem {e : Entry} (h : e.HasPlainType) {c : Char} (hc : isBlank c = true) :
    c ∉ e.type.toList := fun hmem => by
  rw [h c hmem] at hc
  cases hc

/-- A line has no newline in it. -/
theorem newline_notMem_line {e : Entry} (h : e.HasPlainType) : '\n' ∉ e.line := by
  have hspaces : '\n' ∉ List.replicate (2 * e.level) ' ' := fun hmem =>
    absurd (List.eq_of_mem_replicate hmem) (by decide)
  have htype : '\n' ∉ e.type.toList := h.notMem (by decide)
  have hvalue := Text.Quoted.newline_notMem_encode e.value.toList
  simp [line, hspaces, htype, hvalue]

/-- The number of spaces before something else. -/
theorem replicate_append_inj {c : Char} : ∀ {m n : Nat} {text text' : List Char},
    text.head? ≠ some c → text'.head? ≠ some c →
    List.replicate m c ++ text = List.replicate n c ++ text' → m = n ∧ text = text'
  | 0, 0, _, _, _, _, h => ⟨rfl, h⟩
  | 0, n + 1, _, _, hhead, _, h => by
    rw [List.replicate_zero, List.nil_append, List.replicate_succ, List.cons_append] at h
    exact absurd (h ▸ rfl) hhead
  | m + 1, 0, _, _, _, hhead, h => by
    rw [List.replicate_zero, List.nil_append, List.replicate_succ, List.cons_append] at h
    exact absurd (h ▸ rfl) hhead
  | m + 1, n + 1, _, _, hhead, hhead', h => by
    rw [List.replicate_succ, List.replicate_succ] at h
    obtain ⟨rfl, htext⟩ := replicate_append_inj hhead hhead' (List.cons.inj h).2
    exact ⟨rfl, htext⟩

/-- What stands before the first occurrence of a character. -/
theorem append_cons_inj {c : Char} {before before' after after' : List Char} (hbefore : c ∉ before)
    (hbefore' : c ∉ before') (h : before ++ c :: after = before' ++ c :: after') :
    before = before' ∧ after = after' := by
  have hsplit := congrArg (List.splitOn c) h
  rw [List.splitOn_append_cons_self_of_not_mem hbefore,
    List.splitOn_append_cons_self_of_not_mem hbefore'] at hsplit
  obtain ⟨rfl, -⟩ := List.cons.inj hsplit
  exact ⟨rfl, (List.cons.inj (List.append_cancel_left h)).2⟩

/-- A line determines its entry: the spaces before it tell the level, the type ends at the first
colon and blank, and the value is quoted. -/
theorem line_injective {e e' : Entry} (he : e.HasPlainType) (he' : e'.HasPlainType)
    (h : e.line = e'.line) : e = e' := by
  -- the indentation ends before the type, which has no space
  have hhead : ∀ {e : Entry}, e.HasPlainType →
      (e.type.toList ++ ':' :: ' ' :: encode e.value.toList).head? ≠ some ' ' := by
    intro e he
    have hspace : ' ' ∉ e.type.toList := he.notMem (by decide)
    cases htype : e.type.toList with
    | nil => simp
    | cons c rest =>
      rintro heq
      rw [htype, Option.some.inj heq] at hspace
      exact hspace List.mem_cons_self
  -- the type ends before the first space
  have hsplit : ∀ {e : Entry}, e.HasPlainType → ' ' ∉ e.type.toList ++ [':'] := fun he => by
    simpa using he.notMem (c := ' ') (by decide)
  -- so the three parts of the line can be told apart
  obtain ⟨hlevel, hrest⟩ := replicate_append_inj (hhead he) (hhead he') h
  rw [List.append_cons e.type.toList, List.append_cons e'.type.toList] at hrest
  obtain ⟨htype, hvalue⟩ := append_cons_inj (hsplit he) (hsplit he') hrest
  obtain ⟨level, type, value⟩ := e
  obtain ⟨level', type', value'⟩ := e'
  obtain rfl : level = level' := Nat.eq_of_mul_eq_mul_left (by decide) hlevel
  obtain rfl : type = type' := String.toList_inj.mp (List.append_cancel_right htype)
  obtain rfl : value = value' := String.toList_inj.mp (Text.Quoted.encode_injective hvalue)
  rfl

end Entry

/-! ### Entries -/

mutual

/-- The entries of a tree at a level, each before those of its children. -/
def entries (level : Nat) : Tree → List Entry
  | .node type value children => ⟨level, type, value⟩ :: entriesAll (level + 1) children

/-- The entries of several trees at a level. -/
def entriesAll (level : Nat) : List Tree → List Entry
  | [] => []
  | t :: rest => entries level t ++ entriesAll level rest

end

mutual

/-- The lines of a tree are those of its entries. -/
theorem map_toList_lines : ∀ (t : Tree) (level : Nat),
    (lines defaultIndent level t).map String.toList = (t.entries level).map Entry.line
  | .node type value children, level => by
    have hindent : ∀ n, (List.replicate n defaultIndent).flatMap String.toList
        = List.replicate (2 * n) ' ' := by
      intro n
      induction n with
      | zero => rfl
      | succ n ih => rw [List.replicate_succ, List.flatMap_cons, ih]; rfl
    have hline : (String.join (List.replicate level defaultIndent)
        ++ label (.node type value [])).toList = (⟨level, type, value⟩ : Entry).line := by
      rw [String.toList_append, String.toList_join, hindent]
      simp [label, Tree.type, Tree.value, Entry.line, quote]
    rw [lines, entries, List.map_cons, List.map_cons, hline, map_toList_linesAll]

theorem map_toList_linesAll : ∀ (ts : List Tree) (level : Nat),
    (linesAll defaultIndent level ts).map String.toList = (entriesAll level ts).map Entry.line
  | [], _ => rfl
  | t :: rest, level => by
    rw [linesAll, entriesAll, List.map_append, List.map_append, map_toList_lines,
      map_toList_linesAll]

end

/-- No type in the tree has a blank, as no name of a rule in a grammar that compiles has. -/
def HasPlainTypes (t : Tree) : Prop := ∀ node ∈ t.walk, ∀ c ∈ node.type.toList, isBlank c = false

mutual

/-- The types of entries are those of nodes. -/
theorem exists_node_of_mem_entries : ∀ (t : Tree) (level : Nat), ∀ e ∈ t.entries level,
    ∃ node ∈ t.walk, node.type = e.type
  | .node type value children, level, e, he => by
    rw [entries] at he
    rw [walk]
    rcases List.mem_cons.mp he with rfl | he
    · exact ⟨_, List.mem_cons_self, rfl⟩
    · obtain ⟨node, hnode, htype⟩ := exists_node_of_mem_entriesAll children (level + 1) e he
      exact ⟨node, List.mem_cons_of_mem _ hnode, htype⟩

theorem exists_node_of_mem_entriesAll : ∀ (ts : List Tree) (level : Nat),
    ∀ e ∈ entriesAll level ts, ∃ node ∈ walkAll ts, node.type = e.type
  | [], _, e, he => by cases he
  | t :: rest, level, e, he => by
    rw [entriesAll] at he
    rw [walkAll]
    rcases List.mem_append.mp he with he | he
    · obtain ⟨node, hnode, htype⟩ := exists_node_of_mem_entries t level e he
      exact ⟨node, List.mem_append_left _ hnode, htype⟩
    · obtain ⟨node, hnode, htype⟩ := exists_node_of_mem_entriesAll rest level e he
      exact ⟨node, List.mem_append_right _ hnode, htype⟩

end

theorem HasPlainTypes.entries {t : Tree} (h : t.HasPlainTypes) (level : Nat) :
    ∀ e ∈ t.entries level, e.HasPlainType := by
  intro e he
  obtain ⟨node, hnode, htype⟩ := exists_node_of_mem_entries t level e he
  rw [Entry.HasPlainType, ← htype]
  exact h node hnode

/-! ### Trees -/

/-- What follows the trees of a level belongs to a lower one. -/
def Ends (level : Nat) (rest : List Entry) : Prop := ∀ e, rest.head? = some e → e.level < level

/-- Behind the children of a node there is the next node or what follows the trees. -/
theorem Ends.entriesAll {level : Nat} {rest : List Entry} (h : Ends level rest) (ts : List Tree) :
    Ends (level + 1) (entriesAll level ts ++ rest) := by
  intro e he
  cases ts with
  | nil => exact Nat.lt_succ_of_lt (h e he)
  | cons t ts =>
    obtain ⟨type, value, children⟩ := t
    rw [Tree.entriesAll, Tree.entries] at he
    cases he
    exact Nat.lt_succ_self level

/-- Entries determine the trees of a level, and where these end: behind the last entry that is
deeper than the level. -/
theorem entriesAll_append_inj : ∀ {ts ts' : List Tree} {level : Nat} {rest rest' : List Entry},
    Ends level rest → Ends level rest' →
    entriesAll level ts ++ rest = entriesAll level ts' ++ rest' → ts = ts' ∧ rest = rest'
  | [], [], _, _, _, _, _, h => ⟨rfl, h⟩
  | [], .node type value children :: others, level, rest, _, hrest, _, h => by
    -- the entry of a tree on the level cannot begin what ends the level
    rw [entriesAll, entriesAll, entries, List.nil_append] at h
    rw [h] at hrest
    exact absurd (hrest _ rfl) (Nat.lt_irrefl level)
  | .node type value children :: others, [], level, _, rest', _, hrest', h => by
    rw [entriesAll, entriesAll, entries, List.nil_append] at h
    rw [← h] at hrest'
    exact absurd (hrest' _ rfl) (Nat.lt_irrefl level)
  | .node type value children :: others, .node type' value' children' :: others', level, rest,
      rest', hrest, hrest', h => by
    -- the first entry is that of the first tree on both sides
    simp only [entriesAll, entries, List.cons_append, List.append_assoc, List.cons.injEq,
      Entry.mk.injEq] at h
    obtain ⟨⟨-, rfl, rfl⟩, hbelow⟩ := h
    -- the entries of its children end where those of the level go on
    obtain ⟨rfl, hothers⟩ :=
      entriesAll_append_inj (hrest.entriesAll others) (hrest'.entriesAll others') hbelow
    obtain ⟨rfl, heq⟩ := entriesAll_append_inj hrest hrest' hothers
    exact ⟨rfl, heq⟩

theorem entries_injective {t t' : Tree} {level : Nat} (h : t.entries level = t'.entries level) :
    t = t' := by
  have hends : Ends level [] := nofun
  have hall : entriesAll level [t] ++ [] = entriesAll level [t'] ++ [] := by
    simp only [entriesAll, h]
  exact List.singleton_inj.mp (entriesAll_append_inj hends hends hall).1

/-- The lines of a printed tree can be told apart. -/
theorem splitOn_pretty {t : Tree} (h : t.HasPlainTypes) :
    (t.pretty defaultIndent).toList.splitOn '\n' = (t.entries 0).map Entry.line := by
  have hnewline : "\n".toList = ['\n'] := rfl
  have hne : (t.entries 0).map Entry.line ≠ [] := by
    cases t
    rw [entries]
    exact List.cons_ne_nil _ _
  rw [pretty, String.toList_intercalate, map_toList_lines, hnewline]
  refine List.splitOn_intercalate '\n' (fun line hline => ?_) hne
  obtain ⟨e, he, rfl⟩ := List.mem_map.mp hline
  exact Entry.newline_notMem_line (h.entries 0 e he)

theorem map_line_injective : ∀ {es es' : List Entry}, (∀ e ∈ es, e.HasPlainType) →
    (∀ e ∈ es', e.HasPlainType) → es.map Entry.line = es'.map Entry.line → es = es'
  | [], [], _, _, _ => rfl
  | e :: es, e' :: es', hes, hes', h => by
    obtain ⟨he, hes⟩ := List.forall_mem_cons.mp hes
    obtain ⟨he', hes'⟩ := List.forall_mem_cons.mp hes'
    obtain ⟨hline, hrest⟩ := List.cons.inj h
    rw [Entry.line_injective he he' hline, map_line_injective hes hes' hrest]

/-- **Printed trees determine the trees.**  If no type has a blank in it, as no type in the trees of
matches has (`Grammar.hasPlainTypes_of_matchWithin`), trees that are printed alike with the
indentation of two spaces are the same: in the types, values and children of all their nodes. -/
theorem pretty_injective (t t' : Tree) (ht : t.HasPlainTypes) (ht' : t'.HasPlainTypes) :
    t.pretty defaultIndent = t'.pretty defaultIndent ↔ t = t' := by
  refine ⟨fun h => ?_, fun h => by rw [h]⟩
  -- the printed text gives the lines, the lines the entries, and the entries the tree
  have hlines := congrArg (fun s : String => s.toList.splitOn '\n') h
  rw [splitOn_pretty ht, splitOn_pretty ht'] at hlines
  exact entries_injective (map_line_injective (ht.entries 0) (ht'.entries 0) hlines)

/-- A node whose value looks like the line of a child beside a node that has this child. -/
theorem pretty_injective_child :
    (node "a" "x'\n  b: 'y" []).HasPlainTypes ∧ (node "a" "x" [node "b" "y" []]).HasPlainTypes ∧
      (node "a" "x'\n  b: 'y" []).pretty defaultIndent
        ≠ (node "a" "x" [node "b" "y" []]).pretty defaultIndent := by
  have ha : ∀ c ∈ "a".toList, isBlank c = false := List.forall_mem_singleton.mpr rfl
  have hb : ∀ c ∈ "b".toList, isBlank c = false := List.forall_mem_singleton.mpr rfl
  have hvalue : (node "a" "x'\n  b: 'y" []).HasPlainTypes := by
    simpa [HasPlainTypes, walk, walkAll, type] using ha
  have hchild : (node "a" "x" [node "b" "y" []]).HasPlainTypes := by
    simpa [HasPlainTypes, walk, walkAll, type] using And.intro ha hb
  refine ⟨hvalue, hchild, ?_⟩
  rw [ne_eq, pretty_injective _ _ hvalue hchild]
  exact fun h => List.cons_ne_nil _ _ (node.inj h).2.2.symm

end Tree

namespace Grammar

variable [Pattern.Engine] {g : Grammar} {text : List Char}

/-- No name in the grammar of a text has a blank. -/
theorem notBlank_of_mem_names (h : compile text = .ok g) :
    ∀ name ∈ g.names, ∀ c ∈ name.toList, isBlank c = false :=
  fun name hname => (isPlainName_of_compile h name hname).notBlank

/-- No type in a tree of a match has a blank, since the types are names of rules. -/
theorem hasPlainTypes_of_matchWithin (h : compile text = .ok g) {nesting : Nat}
    {rule input : String} {maxDepth : Int} {result : MatchResult}
    (hmatch : g.matchWithin nesting rule input maxDepth = .ok result) :
    result.tree.HasPlainTypes :=
  fun node hnode =>
    notBlank_of_mem_names h node.type (contains_iff.mp (contains_of_mem_walk hmatch node hnode))

end Grammar

end Ebnf
