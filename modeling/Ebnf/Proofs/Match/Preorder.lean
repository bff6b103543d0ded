import Ebnf.Json
import Mathlib.Data.List.Basic

/-!
# The order of the nodes of a tree

Two nodes of a tree may look alike, but they have different addresses: an address says which child
to take at each step down from the root, so it is as long as the node is deep.  An address comes
before those below it, and otherwise its first step that differs decides; the nodes in the order of
their addresses are the preorder of the tree.  Visiting the nodes with a stack, printing them and
writing them as a value all go through this order.

## Main definitions

* `Tree.at?` — the node at an address.
* `Tree.placed` — the nodes with their addresses.
* `JsonValue.nodes` — types and values in an object with objects below it.

## Main results

* `Tree.visitFrom_eq_flatMap` — what is visited from a stack.
* `Tree.mem_placed_iff`, `Tree.pairwise_placed` — each node has one place in the order.
* `Tree.lines_eq_map_placed`, `Tree.nodes_toJson` — printed trees and values keep the order.
* `Tree.visit_preorder` — **all views of a tree go through its preorder.**
-/

namespace Ebnf

/-! ### Objects -/

namespace JsonValue

mutual

/-- What an object has for its type and its value, and then the same of the objects below it, which
are the elements of its list of children. -/
def nodes : JsonValue → List (Option JsonValue × Option JsonValue)
  | .obj members => (members.lookup "type", members.lookup "value") :: nodesBelow members
  | _ => []

/-- The same of the objects in the list among the members that holds the children. -/
def nodesBelow : List (String × JsonValue) → List (Option JsonValue × Option JsonValue)
  | [] => []
  | (key, .arr elements) :: rest =>
    if key = "children" then nodesOfAll elements else nodesBelow rest
  | (key, _) :: rest => if key = "children" then [] else nodesBelow rest

/-- The same of several objects, one after the other. -/
def nodesOfAll : List JsonValue → List (Option JsonValue × Option JsonValue)
  | [] => []
  | j :: rest => nodes j ++ nodesOfAll rest

end

end JsonValue

namespace Tree

/-! ### The stack -/

/-- From a stack all nodes of the trees on it are visited, those of the tree on top first. -/
theorem visitFrom_eq_flatMap (stack : List Tree) :
    visitFrom stack = stack.reverse.flatMap walk := by
  fun_induction visitFrom stack with
  | case1 stack hempty =>
    rw [List.getLast?_eq_none_iff.mp hempty]
    rfl
  | case2 stack t htop ih =>
    obtain ⟨before, rfl⟩ := List.getLast?_eq_some_iff.mp htop
    rw [ih]
    -- the children, in the order that they have in the tree, are now on top
    simp [walk_eq t, walkAll_eq_flatMap]

theorem visit_eq_walk (t : Tree) : t.visit = t.walk := by
  simp [visit, visitFrom_eq_flatMap]

/-- A tree is visited before its children, and these in order. -/
theorem visit_eq_cons (t : Tree) : t.visit = t :: t.children.flatMap visit := by
  rw [show visit = walk from funext visit_eq_walk, walk_eq, walkAll_eq_flatMap]

/-! ### Addresses -/

/-- The node at an address: the numbers of the children on the way there from the root. -/
def at? : Tree → List Nat → Option Tree
  | t, [] => some t
  | t, i :: address => t.children[i]?.bind fun child => child.at? address

@[simp] theorem at?_nil (t : Tree) : t.at? [] = some t := rfl

@[simp] theorem at?_cons (t : Tree) (i : Nat) (address : List Nat) :
    t.at? (i :: address) = t.children[i]?.bind fun child => child.at? address := rfl

mutual

/-- The nodes of a tree with their addresses, each before those below it. -/
def placed : Tree → List (List Nat × Tree)
  | .node type value children => ([], .node type value children) :: placedFrom 0 children

/-- The nodes of several children, the first of which has the given number. -/
def placedFrom (i : Nat) : List Tree → List (List Nat × Tree)
  | [] => []
  | t :: rest => (placed t).map (fun p => (i :: p.1, p.2)) ++ placedFrom (i + 1) rest

end

mutual

theorem map_snd_placed : ∀ t : Tree, t.placed.map (·.2) = t.walk
  | .node type value children => by
    rw [placed, walk, List.map_cons, map_snd_placedFrom]

theorem map_snd_placedFrom : ∀ (ts : List Tree) (i : Nat),
    (placedFrom i ts).map (·.2) = walkAll ts
  | [], _ => rfl
  | t :: rest, i => by
    rw [placedFrom, walkAll, List.map_append, List.map_map, map_snd_placedFrom]
    exact congrArg (· ++ walkAll rest) (map_snd_placed t)

end

mutual

/-- The nodes with their addresses are those that the addresses lead to, so that two equal subtrees
count as two nodes. -/
theorem mem_placed_iff : ∀ (t : Tree) {address : List Nat} {node : Tree},
    (address, node) ∈ t.placed ↔ t.at? address = some node
  | .node type value children, [], found => by
    have hno : ([], found) ∉ placedFrom 0 children := fun h => by
      obtain ⟨j, below, child, heq, -⟩ := (mem_placedFrom_iff children).mp h
      cases heq
    simp [placed, hno, eq_comm]
  | .node type value children, i :: address, found => by
    rw [placed, List.mem_cons, mem_placedFrom_iff, at?_cons, Option.bind_eq_some_iff]
    constructor
    · rintro (heq | ⟨j, below, child, heq, hchild, hfound⟩)
      · cases heq
      · rw [Nat.zero_add] at heq
        cases heq
        exact ⟨child, hchild, hfound⟩
    · rintro ⟨child, hchild, hfound⟩
      exact Or.inr ⟨i, address, child, by rw [Nat.zero_add], hchild, hfound⟩

theorem mem_placedFrom_iff : ∀ (ts : List Tree) {i : Nat} {address : List Nat} {node : Tree},
    (address, node) ∈ placedFrom i ts ↔ ∃ j below child,
      address = (i + j) :: below ∧ ts[j]? = some child ∧ child.at? below = some node
  | [], i, address, found => by simp [placedFrom]
  | t :: rest, i, address, found => by
    rw [placedFrom, List.mem_append, mem_placedFrom_iff rest]
    constructor
    · -- an address either leads into the first tree or into one of the others
      rintro (hfirst | ⟨j, below, child, rfl, hchild, hfound⟩)
      · obtain ⟨⟨below, found'⟩, hmem, heq⟩ := List.mem_map.mp hfirst
        cases heq
        exact ⟨0, below, t, rfl, rfl, (mem_placed_iff t).mp hmem⟩
      · exact ⟨j + 1, below, child, by rw [Nat.add_right_comm, Nat.add_assoc], hchild, hfound⟩
    · rintro ⟨j, below, child, rfl, hchild, hfound⟩
      -- the first number of the address tells which
      cases j with
      | zero =>
        cases hchild
        exact Or.inl (List.mem_map.mpr ⟨(below, found), (mem_placed_iff t).mpr hfound, rfl⟩)
      | succ j =>
        exact Or.inr ⟨j, below, child, by rw [Nat.add_right_comm, Nat.add_assoc], hchild, hfound⟩

end

mutual

/-- The addresses come one after the other, so there is none twice. The order is that of preorder:
an address stands before those that it begins, and these before those of later children. -/
theorem pairwise_placed : ∀ t : Tree, t.placed.Pairwise (fun p q => p.1 < q.1)
  | .node type value children => by
    rw [placed, List.pairwise_cons]
    refine ⟨fun ⟨address, below⟩ hmem => ?_, pairwise_placedFrom children 0⟩
    obtain ⟨j, below, child, rfl, -⟩ := (mem_placedFrom_iff children).mp hmem
    exact List.nil_lt_cons _ _

theorem pairwise_placedFrom : ∀ (ts : List Tree) (i : Nat),
    (placedFrom i ts).Pairwise (fun p q => p.1 < q.1)
  | [], _ => .nil
  | t :: rest, i => by
    rw [placedFrom, List.pairwise_append]
    refine ⟨?_, pairwise_placedFrom rest (i + 1), ?_⟩
    · rw [List.pairwise_map]
      exact (pairwise_placed t).imp fun hlt => List.cons_lt_cons_iff.mpr (Or.inr ⟨rfl, hlt⟩)
    · rintro p hp ⟨address, found⟩ hmem
      -- the child itself has a smaller number than those behind it
      obtain ⟨⟨below, found'⟩, -, rfl⟩ := List.mem_map.mp hp
      obtain ⟨j, below', child, rfl, -⟩ := (mem_placedFrom_iff rest).mp hmem
      exact List.cons_lt_cons_iff.mpr (Or.inl (by omega))

end

/-! ### Lines and values -/

/-- The line of a node, indented for its level. -/
def lineOf (indent : String) (level : Nat) (node : Tree) : String :=
  String.join (List.replicate level indent) ++ node.label

mutual

/-- Each node has a line, which is indented once for each step of its address. -/
theorem lines_eq_map_placed : ∀ (t : Tree) (indent : String) (level : Nat),
    lines indent level t = t.placed.map fun p => lineOf indent (level + p.1.length) p.2
  | .node type value children, indent, level => by
    rw [lines, placed, List.map_cons, linesAll_eq_map_placedFrom children 0]
    rfl

theorem linesAll_eq_map_placedFrom : ∀ (ts : List Tree) (i : Nat) (indent : String) (level : Nat),
    linesAll indent (level + 1) ts =
      (placedFrom i ts).map fun p => lineOf indent (level + p.1.length) p.2
  | [], _, _, _ => rfl
  | t :: rest, i, indent, level => by
    have hlevel : ∀ address : List Nat, level + 1 + address.length
        = level + (i :: address).length := by
      intro address
      rw [List.length_cons]
      omega
    rw [linesAll, placedFrom, List.map_append, List.map_map, lines_eq_map_placed,
      linesAll_eq_map_placedFrom rest (i + 1)]
    simp only [Function.comp_def, hlevel]

end

mutual

/-- The types and values in the value of a tree are those of its nodes. -/
theorem nodes_toJson : ∀ t : Tree,
    t.toJson.nodes = t.walk.map fun node => (some (.str node.type), some (.str node.value))
  | .node type value children => by
    rw [toJson, walk, List.map_cons, ← nodesOfAll_listToJson]
    rfl

theorem nodesOfAll_listToJson : ∀ ts : List Tree,
    JsonValue.nodesOfAll (listToJson ts) =
      (walkAll ts).map fun node => (some (.str node.type), some (.str node.value))
  | [] => rfl
  | t :: rest => by
    rw [listToJson, JsonValue.nodesOfAll, walkAll, List.map_append, nodes_toJson,
      nodesOfAll_listToJson]

end

/-- **All views of a tree go through its preorder.**  Visiting a tree with a stack gives the root
and then what visiting its children gives, in order.  That is each node once: the nodes at the
addresses of the tree, in the order of the addresses.  In the same order the lines of the printed
tree are the labels of the nodes, each indented once for each step of its address, and the objects
in the value of the tree have the types and values of the nodes. -/
theorem visit_preorder (t : Tree) :
    t.visit = t :: t.children.flatMap visit ∧
    t.visit = t.placed.map (·.2) ∧
    (∀ address node, (address, node) ∈ t.placed ↔ t.at? address = some node) ∧
    t.placed.Pairwise (fun p q => p.1 < q.1) ∧
    (∀ indent, t.pretty indent = "\n".intercalate (lines indent 0 t) ∧
      lines indent 0 t = t.placed.map fun p => lineOf indent p.1.length p.2) ∧
    (∀ type, t.findAll type = t.visit.filter (·.type = type)) ∧
    t.toJson.nodes = t.visit.map fun node => (some (.str node.type), some (.str node.value)) := by
  refine ⟨t.visit_eq_cons, ?_, fun _ _ => t.mem_placed_iff, t.pairwise_placed,
    fun indent => ⟨rfl, ?_⟩, fun type => ?_, ?_⟩
  · rw [visit_eq_walk, map_snd_placed]
  · rw [lines_eq_map_placed]
    simp only [Nat.zero_add]
  · rw [visit_eq_walk, findAll]
  · rw [visit_eq_walk, nodes_toJson]

/-- A root with two children that look alike, the first of which has a child. -/
example : (node "a" "xy" [node "b" "x" [node "c" "x" []], node "b" "x" []]).placed.map (·.1)
    = [[], [0], [0, 0], [1]] := by
  decide

end Tree
end Ebnf
