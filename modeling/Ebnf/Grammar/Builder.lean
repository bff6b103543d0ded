import Ebnf.Grammar

/-!
# Building a grammar

A builder collects the rules of a grammar. A name is reserved before the rule under it is defined,
so that names keep the order in which statements and brackets begin. Rules lifted out of brackets
get names of their own, which avoid the names in use and those that the statements declare.

## Main definitions

* `Builder` — names in the order of their reservation, with the rules defined so far.
* `Builder.reserve`, `Builder.define` — the two steps of adding a rule.
* `Builder.freshName` — a name for the next rule lifted out of a rule.
* `Builder.unresolved` — the references to rules that do not exist.
* `Builder.freeze` — the finished grammar.
-/

namespace Ebnf

variable [Pattern.Engine]

/-- The rules of a grammar under construction. A name is reserved before its rule is defined, and
its place in the order is that of the reservation. -/
structure Builder where
  /-- The names that the statements of the grammar declare. -/
  declared : List String
  /-- The reserved names in order, each with its rule once that is defined. -/
  slots : List (String × Option Rule)
  /-- The fresh names, the last first: for which rule each was made, and with which number. -/
  counters : List (String × Nat)
  deriving DecidableEq, Repr

namespace Builder

/-- A builder without rules, which knows the names that statements will declare. -/
def empty (declared : List String) : Builder := ⟨declared, [], []⟩

/-- The reserved names in the order of their reservation, which becomes the order of the rules. -/
def order (b : Builder) : List String := b.slots.map (·.1)

/-- Whether a name is reserved. -/
def contains (b : Builder) (name : String) : Bool := b.order.contains name

/-- Reserves a name. The statement is for the report if the name is in use. -/
def reserve (b : Builder) (name : String) (statement : Option String) :
    Except BuildFault Builder :=
  if b.contains name then .error (.grammar ⟨.duplicateIdentifier name, statement⟩)
  else .ok { b with slots := b.slots ++ [(name, none)] }

/-- Defines the rule under its name, which has to be reserved and not yet defined. -/
def define (b : Builder) (r : Rule) : Except BuildFault Builder :=
  match b.slots.lookup r.name with
  | none => .error (.notReserved r.name)
  | some (some _) => .error (.grammar ⟨.duplicateIdentifier r.name, some r.source⟩)
  | some none =>
    .ok { b with slots := b.slots.map fun (name, rule) =>
      if name = r.name then (name, some r) else (name, rule) }

/-! ### Fresh names -/

/-- The name of the `k`-th rule lifted out of a rule. -/
def liftedName (parent : String) (k : Nat) : String := parent ++ "SubDef" ++ toString k

/-- Whether a name is neither reserved nor declared. -/
def isFree (b : Builder) (name : String) : Bool :=
  !b.contains name && !b.declared.contains name

/-- The first number from `k` on that gives a free name, if one of the next `tries` does. -/
def firstFree (b : Builder) (parent : String) : (tries : Nat) → Nat → Nat
  | 0, k => k
  | tries + 1, k =>
    if b.isFree (liftedName parent k) then k else b.firstFree parent tries (k + 1)

/-- The number of the last fresh name for a rule. -/
def counter (b : Builder) (parent : String) : Nat := (b.counters.lookup parent).getD 0

/-- The fresh names made so far, the last first. -/
def taken (b : Builder) : List String := b.counters.map fun (parent, k) => liftedName parent k

/-- A name for the next rule lifted out of `parent`: the first free one after the last that it had.
Numbers give different names, so at most as many are not free as names are in use. -/
def freshName (b : Builder) (parent : String) : String × Builder :=
  let k := b.firstFree parent (b.slots.length + b.declared.length) (b.counter parent + 1)
  (liftedName parent k,
    { b with counters := (parent, k) :: b.counters })

/-! ### The finished grammar -/

/-- The rules of all reserved names, or the first name without a rule. -/
def rules (b : Builder) : Except BuildFault (List Rule) :=
  b.slots.mapM fun (name, rule) =>
    match rule with
    | some r => .ok r
    | none => .error (.notDefined name)

/-- The references to rules that are not among the given ones: pairs of the rule of the statement
and the missing name, in order and without repetitions. -/
def unresolved (rules : List Rule) : List (String × String) :=
  let pairs := rules.flatMap fun r =>
    (r.references.filter fun name => !rules.any (·.name = name)).map (r.home, ·)
  pairs.foldl (fun seen pair => if pair ∈ seen then seen else seen ++ [pair]) []

/-- The texts of the statements that define the given rules, each once. -/
def statementsOf (rules : List Rule) (homes : List String) :
    Except BuildFault (List (String × String)) :=
  (homes.foldl (fun seen home => if home ∈ seen then seen else seen ++ [home]) []).mapM
    fun home =>
      match rules.find? (·.name = home) with
      | some r => .ok (home, r.source)
      | none => .error (.noHome home)

/-- Checks that every reference has a rule. Lifted rules count as rules here, and a fault lists all
references that have none. -/
def checkReferences (rules : List Rule) : Except BuildFault Unit :=
  match unresolved rules with
  | [] => .ok ()
  | (home, name) :: others => do
    let missing := (home, name) :: others
    let statements ← statementsOf rules (missing.map (·.1))
    throw (.grammar ⟨.unresolved missing statements, statements.lookup home⟩)

/-- The grammar of the rules collected. There have to be some, each defined, with references that
have rules and names that can be enumerated, and this is checked in turn. -/
def freeze (b : Builder) : Except BuildFault Grammar := do
  if b.slots.isEmpty then throw (.grammar ⟨.emptyGrammar, none⟩)
  let rules ← b.rules
  checkReferences rules
  let types ← nodeTypes ((rules.filter (!·.isLifted)).map (·.name))
  return ⟨rules, types⟩

end Builder

/-- A step of building, which keeps what it has done when it fails. -/
abbrev Build := ExceptT BuildFault (StateM Builder)

namespace Build

/-- Reserves a name in the builder at hand. -/
def reserve (name : String) (statement : Option String) : Build Unit := do
  match (← get).reserve name statement with
  | .ok b => set b
  | .error fault => throw fault

/-- Defines a rule in the builder at hand. -/
def define (r : Rule) : Build Unit := do
  match (← get).define r with
  | .ok b => set b
  | .error fault => throw fault

/-- Takes a fresh name from the builder at hand. -/
def freshName (parent : String) : Build String :=
  modifyGet fun b => b.freshName parent

end Build

end Ebnf
