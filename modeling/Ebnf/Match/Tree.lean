import Ebnf.Text.Quoted

/-!
# Parse trees

A node has the name of a rule as its type and the text that the rule took as its value. Its
children come from the references to rules in the alternative that matched, in order.

## Main definitions

* `Tree` — the trees.
* `Tree.label` — type and value of a node in one line.
* `Tree.walk` — all nodes, a node before its children.
* `Tree.visit` — the same nodes, found with a stack of those that wait.
* `Tree.findAll` — the nodes of a type.
* `Tree.pretty` — a text with one line for each node.
-/

namespace Ebnf

open Text (quote)

/-- A parse tree. Trees have no other structure: the text that no node covers is found only in the
values of those above. -/
inductive Tree where
  /-- A node with its type, its value and its children. -/
  | node (type value : String) (children : List Tree)
  deriving Repr

instance : Inhabited Tree := ⟨.node "" "" []⟩

namespace Tree

/-- The type of the root. -/
def type : Tree → String
  | .node type _ _ => type

/-- The value of the root. -/
def value : Tree → String
  | .node _ value _ => value

/-- The children of the root. -/
def children : Tree → List Tree
  | .node _ _ children => children

/-- The type and the quoted value of the root. -/
def label (t : Tree) : String := t.type ++ ": " ++ quote t.value

mutual

/-- All nodes of a tree, each before its children. -/
def walk : Tree → List Tree
  | .node type value children => .node type value children :: walkAll children

/-- All nodes of several trees, one tree after the other. -/
def walkAll : List Tree → List Tree
  | [] => []
  | t :: rest => walk t ++ walkAll rest

end

theorem walk_eq (t : Tree) : t.walk = t :: walkAll t.children := by
  obtain ⟨type, value, children⟩ := t
  rfl

theorem walkAll_eq_flatMap (ts : List Tree) : walkAll ts = ts.flatMap walk := by
  induction ts with
  | nil => rfl
  | cons t rest ih => rw [walkAll, ih, List.flatMap_cons]

/-- The nodes that are visited from a stack of trees, whose top is its last one: the tree on top is
taken off, and its children are put on the stack in reverse, so that the first one is next. -/
def visitFrom (stack : List Tree) : List Tree :=
  match _h : stack.getLast? with
  | none => []
  | some t => t :: visitFrom (stack.dropLast ++ t.children.reverse)
termination_by (walkAll stack).length
decreasing_by
  obtain ⟨before, rfl⟩ := List.getLast?_eq_some_iff.mp _h
  simp [walkAll_eq_flatMap, walk_eq t, List.length_flatMap]

/-- All nodes of a tree, visited with a stack. -/
def visit (t : Tree) : List Tree := visitFrom [t]

/-- The nodes of a type, in the order of `walk`. -/
def findAll (t : Tree) (type : String) : List Tree := t.walk.filter (·.type = type)

mutual

/-- A line for each node of a tree at a level. -/
def lines (indent : String) (level : Nat) : Tree → List String
  | .node type value children =>
    (String.join (List.replicate level indent) ++ label (.node type value [])) ::
      linesAll indent (level + 1) children

/-- A line for each node of several trees at a level. -/
def linesAll (indent : String) (level : Nat) : List Tree → List String
  | [] => []
  | t :: rest => lines indent level t ++ linesAll indent level rest

end

/-- The tree as a text: a line for each node, indented by its level. -/
def pretty (t : Tree) (indent : String) : String := "\n".intercalate (lines indent 0 t)

/-- The indentation that is used where none is asked for. -/
def defaultIndent : String := "  "

end Tree

end Ebnf
