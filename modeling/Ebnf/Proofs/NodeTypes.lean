import Ebnf.Proofs.Match.Derivation
import Ebnf.Proofs.Naming

/-!
# The types of nodes

A node has the type of the statement to which its rule belongs, and the types of a grammar are
enumerated when it is finished.  The enumeration accepts more names than it makes members of: a name
that is set apart is left out without a report, unless it stands between single underscores and is
not among those accepted there.  So the members are the rules of the statements but for those with
names set apart, and the nodes of such a rule have a type that is no member.

## Main definitions

* `NodeType.IsSetApart` — the names of which no members are made.
* `NodeType.IsRefused` — the names that are reported instead.

## Main results

* `NodeType.isMember_eq_ok_true_iff`, `NodeType.exists_members_eq_error_iff` — both in terms of the
  enumeration.
* `Grammar.exists_nodeTypeOf?_of_mem_walk` — every node of a match has a type.
* `Grammar.nodeTypes_spec` — **which rules of statements are types of nodes.**
-/

namespace Ebnf

open Source (dropBlanks)

namespace NodeType

/-- No member is made of the name: it is private, or stands between single or double underscores. -/
def IsSetApart (name : String) : Prop :=
  isPrivate name.toList = true ∨ isSunder name.toList = true ∨ isDunder name.toList = true

instance (name : String) : Decidable (IsSetApart name) := inferInstanceAs (Decidable (_ ∨ _))

/-- The name is reported as one that is no node type: it is set apart but not accepted, no member
may have it, or it is the name for slots. -/
def IsRefused (name : String) : Prop :=
  (isSunder name.toList = true ∧ isPrivate name.toList = false ∧ name ∉ acceptedSunders) ∨
    name ∈ invalidNames ∨ name = "__slots__"

theorem isMember_eq_ok_true_iff {name : String} :
    isMember name = .ok true ↔ ¬IsSetApart name := by
  unfold isMember IsSetApart
  split_ifs with hprivate hsunder haccepted <;> simp [*]

theorem exists_isMember_iff_not {name : String} : (∃ b, isMember name = .ok b) ↔
    ¬(isSunder name.toList = true ∧ isPrivate name.toList = false ∧ name ∉ acceptedSunders) := by
  rw [exists_isMember_iff]
  by_cases hprivate : isPrivate name.toList = true <;>
    by_cases hsunder : isSunder name.toList = true <;> simp [hprivate, hsunder]

/-- Names make no members when one of them is refused, whatever the others are. -/
theorem exists_members_eq_error_iff {names : List String} :
    (∃ fault, members names = .error fault) ↔ ∃ name ∈ names, IsRefused name := by
  -- they do make members when none is refused, and refusals are the three kinds of fault
  have hok : (∃ types, members names = .ok types) ↔ ∀ name ∈ names, ¬IsRefused name := by
    simp only [members_eq_ok_iff, IsRefused, not_or]
    constructor
    · rintro ⟨_, haccepted, rfl, hvalid, hslots⟩ name hname
      refine ⟨exists_isMember_iff_not.mp (haccepted name hname), fun hinvalid => ?_, ?_⟩
      · refine hvalid name hinvalid (List.mem_filter.mpr ⟨hname, ?_⟩)
        exact decide_eq_true (isMember_of_mem_invalidNames name hinvalid)
      · rintro rfl
        exact hslots hname
    · intro h
      refine ⟨_, fun name hname => exists_isMember_iff_not.mpr (h name hname).1, rfl, ?_, ?_⟩
      · intro name hinvalid hmem
        exact (h name (List.mem_of_mem_filter hmem)).2.1 hinvalid
      · exact fun hslots => (h _ hslots).2.2 rfl
  rcases hmembers : members names with fault | types
  · refine iff_of_true ⟨fault, rfl⟩ ?_
    by_contra hno
    obtain ⟨types, htypes⟩ := hok.mpr fun name hname hrefused => hno ⟨name, hname, hrefused⟩
    rw [hmembers] at htypes
    cases htypes
  · refine iff_of_false (fun ⟨_, h⟩ => nomatch h) ?_
    rintro ⟨name, hname, hrefused⟩
    exact hok.mp ⟨types, hmembers⟩ name hname hrefused

end NodeType

section AnyEngine

variable [Pattern.Engine]

/-! ### Faults of statements -/

section

variable {raw : List Char} {fault : NodeTypeFault} {statement : Option String}

theorem Statement.read_ne_nodeType :
    Statement.read raw ≠ .error ⟨.nodeType fault, statement⟩ := by
  intro h
  rw [Statement.read] at h
  dsimp only at h
  split at h
  · cases h
  · cases h
  · split at h
    · cases h
    · cases h

/-- What is wrong with a single statement is not that it names no node type. -/
theorem faultOf?_ne_nodeType {declared earlier : List String} :
    faultOf? declared earlier raw ≠ some ⟨.nodeType fault, statement⟩ := by
  intro h
  rcases hread : Statement.read raw with fault' | s
  · rw [faultOf?, hread] at h
    cases h
    exact Statement.read_ne_nodeType hread
  · rw [faultOf?_of_read hread] at h
    split at h
    · cases h
    · obtain ⟨cause, hcause, heq⟩ := Option.map_eq_some_iff.mp h
      obtain ⟨why, -, rule, rfl⟩ := Definitions.exists_cause_of_fault? hcause
      cases why <;> cases heq

end

/-! ### Rules of statements -/

/-- The rules of a statement belong to the statement, as its name is not empty. -/
theorem Statement.Makes.home_eq {s : Statement} {rules : List Rule} (h : s.Makes rules)
    (hname : s.name ≠ "") : ∀ r ∈ rules, r.home = s.name := by
  obtain ⟨alts, below, hlift, rfl⟩ := h
  intro r hr
  rcases List.mem_cons.mp hr with rfl | hbelow
  · rfl
  · have hempty : s.name.isEmpty = false := by simpa using hname
    rw [Rule.home, (hlift.liftedFrom r hbelow).owner_eq]
    dsimp only
    rw [hempty]
    rfl

/-- The block of a statement is made by it, and the rules in it belong to it. -/
theorem IsStatement.makes_blockOf {raw : List Char} {name : String} {d : Definitions}
    (h : IsStatement name d (dropBlanks raw)) (declared : List String) :
    Statement.Makes ⟨name, d, String.ofList (dropBlanks raw)⟩ (blockOf declared raw) ∧
      ∀ r ∈ blockOf declared raw, r.home = name := by
  obtain ⟨_, -, ⟨hne, -⟩, hwritten⟩ := id h
  have hmakes := @Statement.makes_block _ declared
    ⟨name, d, String.ofList (dropBlanks raw)⟩ hwritten.readable
  rw [← blockOf_of_read h.read_eq] at hmakes
  refine ⟨hmakes, hmakes.home_eq ?_⟩
  rintro rfl
  exact hne rfl

/-- A rule belongs to one of a statement, which has a name that the statement declares. -/
theorem home_mem_declaredNames {raws : List (List Char)}
    (h : ∀ raw ∈ raws, ∃ name d, IsStatement name d (dropBlanks raw)) :
    ∀ r ∈ rulesOf raws, r.home ∈ declaredNames raws := by
  intro r hr
  obtain ⟨raw, hraw, hr⟩ := List.mem_flatMap.mp hr
  obtain ⟨name, d, hstatement⟩ := h raw hraw
  rw [(hstatement.makes_blockOf _).2 r hr]
  exact List.mem_filterMap.mpr ⟨raw, hraw, declaredName?_of_isStatement hstatement⟩

namespace Grammar

variable {g : Grammar} {text : List Char}

/-- The rules of the statements are those that the statements declare, in order. -/
theorem topLevel_of_compile {raws : List (List Char)} (hrules : g.rules = rulesOf raws)
    (h : ∀ raw ∈ raws, ∃ name d, IsStatement name d (dropBlanks raw)) :
    g.topLevel = declaredNames raws := by
  rw [topLevel, hrules]
  exact topLevel_blocks h

theorem nodeTypes_of_compile (h : compile text = .ok g) :
    g.nodeTypes = g.topLevel.filter fun name => ¬NodeType.IsSetApart name := by
  obtain ⟨raws, b, -, -, hfreeze⟩ := compile_eq_ok_iff.mp h
  obtain ⟨-, -, htypes⟩ := Builder.freeze_eq_ok hfreeze
  obtain ⟨hmembers, -⟩ := nodeTypes_eq_ok_iff.mp htypes
  obtain ⟨-, hfilter, -⟩ := NodeType.members_eq_ok_iff.mp hmembers
  rw [hfilter]
  refine List.filter_congr fun name _ => ?_
  rw [decide_eq_decide]
  exact NodeType.isMember_eq_ok_true_iff

/-- A rule that is found has a rule of a statement as its type. -/
theorem exists_nodeTypeOf? (h : compile text = .ok g) {name : String}
    (hname : g.contains name = true) :
    ∃ type ∈ g.topLevel, g.nodeTypeOf? name = some type := by
  obtain ⟨raws, -, hstatements, -, hrules, -, -⟩ := names_of_compile h
  obtain ⟨r, hfind⟩ := exists_find?_of_mem_names (contains_iff.mp hname)
  refine ⟨r.home, ?_, by rw [nodeTypeOf?, hfind, Option.map_some]⟩
  rw [topLevel_of_compile hrules hstatements]
  exact home_mem_declaredNames hstatements r (hrules ▸ (mem_of_find?_eq_some hfind).1)

/-- Only rules that exist are matched; for any other name there is a fault. -/
theorem contains_of_matchWithin {nesting : Nat} {rule input : String} {maxDepth : Int}
    {result : MatchResult} (h : g.matchWithin nesting rule input maxDepth = .ok result) :
    g.contains rule = true := by
  rw [matchWithin] at h
  split at h
  · cases h
  · split at h
    · cases h
    · next hcontains => simpa using hcontains

/-- Every node of a match has a rule: that of a derivation exists, and a match that fails has the
rule to match at its root. -/
theorem contains_of_mem_walk {nesting : Nat} {rule input : String} {maxDepth : Int}
    {result : MatchResult} (h : g.matchWithin nesting rule input maxDepth = .ok result) :
    ∀ node ∈ result.tree.walk, g.contains node.type = true := by
  intro node hnode
  obtain ⟨hsuccess, hfailure⟩ := matchWithin_isDerivation h
  cases hresult : result.success with
  | true =>
    obtain ⟨-, -, -, hnodes⟩ := hsuccess hresult
    obtain ⟨_, _, -, hderives⟩ := hnodes node hnode
    obtain ⟨hfind, -, -⟩ := hderives
    obtain ⟨hr, hname⟩ := mem_of_find?_eq_some hfind
    exact contains_iff.mpr (hname ▸ List.mem_map_of_mem hr)
  | false =>
    obtain ⟨-, htree⟩ := hfailure hresult
    rw [htree] at hnode
    have hroot : node = .node rule "" [] := by simpa [Tree.walk, Tree.walkAll] using hnode
    rw [hroot]
    exact contains_of_matchWithin h

/-- Every node of a match has a type, since its rule is one of the grammar. -/
theorem exists_nodeTypeOf?_of_mem_walk (h : compile text = .ok g) {nesting : Nat}
    {rule input : String} {maxDepth : Int} {result : MatchResult}
    (hmatch : g.matchWithin nesting rule input maxDepth = .ok result) :
    ∀ node ∈ result.tree.walk, ∃ type ∈ g.topLevel, g.nodeTypeOf? node.type = some type :=
  fun node hnode => exists_nodeTypeOf? h (contains_of_mem_walk hmatch node hnode)

/-- A name is only reported as no node type when the names are enumerated. -/
theorem FailsWith.members_eq {fault : NodeTypeFault} {statement : Option String}
    (h : FailsWith text (.grammar ⟨.nodeType fault, statement⟩)) :
    ∃ raws, Parses text raws ∧ AllResolved (rulesOf raws) ∧
      NodeType.members (declaredNames raws) = .error fault := by
  generalize hfault : BuildFault.grammar ⟨.nodeType fault, statement⟩ = found at h
  cases h with
  | @breaksOff open' h => cases open' <;> cases hfault
  | statement _ _ h =>
    cases hfault
    exact absurd h faultOf?_ne_nodeType
  | empty => cases hfault
  | unresolved => cases hfault
  | refused hparses hresolved hmembers =>
    cases hfault
    exact ⟨_, hparses, hresolved, hmembers⟩
  | broken => cases hfault

/-- The names are reported of a text when nothing else is wrong with it and one is refused. -/
theorem compile_eq_nodeType_iff : (∃ fault statement,
      compile text = .error (.grammar ⟨.nodeType fault, statement⟩)) ↔
    ∃ raws, Parses text raws ∧ AllResolved (rulesOf raws) ∧
      ∃ name ∈ declaredNames raws, NodeType.IsRefused name := by
  constructor
  · rintro ⟨fault, statement, h⟩
    obtain ⟨raws, hparses, hresolved, hmembers⟩ := (compile_eq_error_iff.mp h).members_eq
    exact ⟨raws, hparses, hresolved, NodeType.exists_members_eq_error_iff.mp ⟨fault, hmembers⟩⟩
  · rintro ⟨raws, hparses, hresolved, hrefused⟩
    obtain ⟨fault, hfault⟩ := NodeType.exists_members_eq_error_iff.mpr hrefused
    exact ⟨fault, none, (FailsWith.refused hparses hresolved hfault).compile_eq⟩

/-- **Which rules of statements are types of nodes.**  Those whose names are not set apart, in
order; so all of them are if and only if no name is set apart.  Every node of a match has a rule of
a statement as its type, which is a member if and only if its name is not set apart.  A name is
reported as no node type exactly of the texts with which nothing else is wrong and that declare a
name that is refused. -/
theorem nodeTypes_spec (text : List Char) :
    (∀ g, compile text = .ok g →
      g.nodeTypes = (g.topLevel.filter fun name => ¬NodeType.IsSetApart name) ∧
      (g.nodeTypes = g.topLevel ↔ ∀ name ∈ g.topLevel, ¬NodeType.IsSetApart name) ∧
      ∀ nesting rule input maxDepth result,
        g.matchWithin nesting rule input maxDepth = .ok result →
        ∀ node ∈ result.tree.walk, ∃ type ∈ g.topLevel, g.nodeTypeOf? node.type = some type ∧
          (type ∈ g.nodeTypes ↔ ¬NodeType.IsSetApart type)) ∧
    ((∃ fault statement, compile text = .error (.grammar ⟨.nodeType fault, statement⟩)) ↔
      ∃ raws, Parses text raws ∧ AllResolved (rulesOf raws) ∧
        ∃ name ∈ declaredNames raws, NodeType.IsRefused name) := by
  refine ⟨fun g h => ?_, compile_eq_nodeType_iff⟩
  have htypes := nodeTypes_of_compile h
  refine ⟨htypes, ?_, fun nesting rule input maxDepth result hmatch node hnode => ?_⟩
  · rw [htypes, List.filter_eq_self]
    simp only [decide_eq_true_eq]
  · obtain ⟨type, htop, htype⟩ := exists_nodeTypeOf?_of_mem_walk h hmatch node hnode
    refine ⟨type, htop, htype, ?_⟩
    rw [htypes, List.mem_filter, decide_eq_true_eq]
    exact and_iff_right htop

end Grammar

end AnyEngine

namespace Grammar

attribute [local instance] Pattern.Engine.verbatim

/-- The grammar of a statement whose name stands between double underscores. -/
def dunderGrammar : Grammar :=
  { rules := [⟨"__x__", [[.terminal "a"]], "__x__=\"a\"", none, none⟩]
    nodeTypes := [] }

theorem compile_dunder :
    compile ['_', '_', 'x', '_', '_', '=', '"', 'a', '"', ';'] = .ok dunderGrammar :=
  compile_eq_ok_iff.mpr
    ⟨[['_', '_', 'x', '_', '_', '=', '"', 'a', '"']],
      ⟨["__x__"], dunderGrammar.rules.map Rule.slot, []⟩, by cbv, by cbv, rfl⟩

/-- A statement that compiles, although its name is set apart and no member is made of it. -/
theorem nodeTypes_spec_dunder :
    compile ['_', '_', 'x', '_', '_', '=', '"', 'a', '"', ';'] = .ok dunderGrammar ∧
      dunderGrammar.nodeTypes ≠ dunderGrammar.topLevel ∧
      ∃ result, dunderGrammar.matchWithin 9 "__x__" "a" 1 = .ok result ∧
        ∀ node ∈ result.tree.walk, ∃ type ∈ dunderGrammar.topLevel,
          dunderGrammar.nodeTypeOf? node.type = some type := by
  obtain ⟨-, hall, hnodes⟩ := (nodeTypes_spec _).1 _ compile_dunder
  refine ⟨compile_dunder, fun h => hall.mp h "__x__" (by decide) (by decide),
    ⟨true, "", .node "__x__" "a" []⟩, by cbv, ?_⟩
  intro node hnode
  obtain ⟨type, htop, htype, -⟩ := hnodes 9 "__x__" "a" 1 _ (by cbv) node hnode
  exact ⟨type, htop, htype⟩

end Grammar

end Ebnf
