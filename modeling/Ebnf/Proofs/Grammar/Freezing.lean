import Ebnf.Grammar.Builder
import Mathlib.Data.List.Basic

/-!
# Finishing a grammar

A builder becomes a grammar when every slot has its rule, every reference has a rule to refer to,
and the names of the statements make node types.

## Main results

* `NodeType.members_eq_ok_iff`, `NodeType.enumerationFault?_eq_none_iff` — which names make node
  types, and which ones they make.
* `Builder.mem_unresolved` — which references are reported as unresolved.
* `Builder.freeze_eq_ok` — what is known of a builder that becomes a grammar.
* `Builder.freeze_of_unresolved` — a reference without a rule keeps it from becoming one.
-/

namespace Ebnf

/-! ### Node types -/

/-- Filtering by a test that can fail. -/
theorem filterAuxM_eq_ok_iff {ε α : Type} [DecidableEq ε] {f : α → Except ε Bool} :
    ∀ {l acc members : List α}, l.filterAuxM f acc = .ok members ↔
      (∀ a ∈ l, ∃ b, f a = .ok b) ∧ members = (l.filter (f · = .ok true)).reverse ++ acc := by
  intro l
  induction l with
  | nil =>
    intro acc members
    rw [List.filterAuxM]
    simp [pure, Except.pure, eq_comm]
  | cons a l ih =>
    intro acc members
    rw [List.filterAuxM]
    rcases ha : f a with fault | _ | _
    · simp [ha, bind, Except.bind]
    · change List.filterAuxM f l acc = _ ↔ _
      rw [ih]
      simp [ha]
    · change List.filterAuxM f l (a :: acc) = _ ↔ _
      rw [ih]
      simp [ha]

theorem filterM_eq_ok_iff {ε α : Type} [DecidableEq ε] {f : α → Except ε Bool}
    {l members : List α} : l.filterM f = .ok members ↔
      (∀ a ∈ l, ∃ b, f a = .ok b) ∧ members = l.filter (f · = .ok true) := by
  rw [List.filterM]
  constructor
  · intro h
    rcases haux : l.filterAuxM f [] with fault | reversed
    · rw [haux] at h
      cases h
    · rw [haux] at h
      cases h
      obtain ⟨hall, rfl⟩ := filterAuxM_eq_ok_iff.mp haux
      exact ⟨hall, by simp⟩
  · rintro ⟨hall, rfl⟩
    rw [filterAuxM_eq_ok_iff.mpr ⟨hall, rfl⟩]
    simp [bind, Except.bind, pure, Except.pure]

namespace NodeType

/-- Names make members when all of them are accepted, no member has a name that none may have, and
the name for slots is not among them. -/
theorem members_eq_ok_iff {names types : List String} :
    members names = .ok types ↔
      (∀ name ∈ names, ∃ b, isMember name = .ok b) ∧
        types = names.filter (isMember · = .ok true) ∧
        (∀ name ∈ invalidNames, name ∉ types) ∧ "__slots__" ∉ names := by
  -- the names are read one after the other, and a name that is refused ends it
  rcases hmembers : names.filterM isMember with fault | found
  · have hno : ¬ ∀ name ∈ names, ∃ b, isMember name = .ok b := fun hall => by
      rw [filterM_eq_ok_iff.mpr ⟨hall, rfl⟩] at hmembers
      cases hmembers
    rw [members, hmembers]
    exact iff_of_false (by rintro ⟨⟩) fun h => hno h.1
  · obtain ⟨hall, rfl⟩ := filterM_eq_ok_iff.mp hmembers
    rw [members, hmembers]
    dsimp only [bind, Except.bind]
    -- a member with a name that none may have is found before the name for slots
    rcases hinvalid : invalidNames.filter
      (· ∈ names.filter (isMember · = .ok true)) with _ | ⟨name, invalid⟩
    · rw [List.filter_eq_nil_iff] at hinvalid
      dsimp only
      by_cases hslots : "__slots__" ∈ names
      · rw [if_pos hslots]
        exact iff_of_false (by rintro ⟨⟩) fun h => h.2.2.2 hslots
      · rw [if_neg hslots]
        constructor
        · rintro ⟨⟩
          exact ⟨hall, rfl, by simpa using hinvalid, hslots⟩
        · rintro ⟨-, rfl, -, -⟩
          rfl
    · refine iff_of_false (by rintro ⟨⟩) ?_
      rintro ⟨-, rfl, hno, -⟩
      have hmem := hinvalid ▸ List.mem_cons_self
      rw [List.mem_filter] at hmem
      exact hno name hmem.1 (by simpa using hmem.2)

/-- Names do not break their enumeration when none of them stands for its cell or for the order of
its members, nor, if there are members, for a step that makes them. -/
theorem enumerationFault?_eq_none_iff {names types : List String} :
    enumerationFault? names types = none ↔
      "__classcell__" ∉ names ∧ (types = [] ∨ ∀ name ∈ names, name ∉ stepNames) ∧
        ∀ name ∈ names, name ∉ orderNames := by
  unfold enumerationFault?
  split_ifs with hcell hstep
  · simp [hcell]
  · simp only [false_iff]
    rintro ⟨-, h, -⟩
    obtain ⟨hmembers, name, hname, hmem⟩ := hstep
    exact h.elim hmembers fun h => h name hname hmem
  · simp only [Option.map_eq_none_iff, List.getLast?_eq_none_iff, List.filter_eq_nil_iff,
      decide_eq_true_eq]
    refine ⟨fun h => ⟨hcell, ?_, h⟩, fun h => h.2.2⟩
    by_cases hmembers : types = []
    · exact Or.inl hmembers
    · exact Or.inr fun name hname hmem => hstep ⟨hmembers, name, hname, hmem⟩

end NodeType

theorem nodeTypes_eq_ok_iff {names types : List String} :
    nodeTypes names = .ok types ↔
      NodeType.members names = .ok types ∧ NodeType.enumerationFault? names types = none := by
  unfold nodeTypes
  rcases hmembers : NodeType.members names with fault | found
  · simp
  · dsimp only
    rcases hfault : NodeType.enumerationFault? names found with _ | fault
    · simp only [Except.ok.injEq]
      exact ⟨fun h => ⟨h, h ▸ hfault⟩, And.left⟩
    · simp only [reduceCtorEq, Except.ok.injEq, false_iff, not_and]
      rintro rfl hnone
      rw [hfault] at hnone
      cases hnone

/-- Names that make node types make the same ones in another order. -/
theorem nodeTypes_perm {names names' types : List String} (hperm : names.Perm names')
    (h : nodeTypes names = .ok types) : ∃ types', nodeTypes names' = .ok types' := by
  obtain ⟨hmembers, hfault⟩ := nodeTypes_eq_ok_iff.mp h
  obtain ⟨hall, rfl, hvalid, hslots⟩ := NodeType.members_eq_ok_iff.mp hmembers
  obtain ⟨hcell, hstep, horder⟩ := NodeType.enumerationFault?_eq_none_iff.mp hfault
  have htypes := hperm.filter (NodeType.isMember · = .ok true)
  have hmem : ∀ name, name ∈ names' → name ∈ names := fun name => hperm.mem_iff.mpr
  refine ⟨names'.filter (NodeType.isMember · = .ok true), nodeTypes_eq_ok_iff.mpr ⟨?_, ?_⟩⟩
  · refine NodeType.members_eq_ok_iff.mpr ⟨fun name hname => hall name (hmem name hname), rfl,
      fun name hname htype => hvalid name hname (htypes.mem_iff.mpr htype), ?_⟩
    exact fun h => hslots (hmem _ h)
  · refine NodeType.enumerationFault?_eq_none_iff.mpr ⟨fun h => hcell (hmem _ h), ?_,
      fun name hname => horder name (hmem name hname)⟩
    refine hstep.imp (fun hnil => ?_) fun h name hname => h name (hmem name hname)
    rw [hnil] at htypes
    exact htypes.nil_eq.symm

variable [Pattern.Engine]

namespace Builder

/-! ### Unresolved references -/

omit [Pattern.Engine] in
/-- Adding what is new, one after the other, loses nothing. -/
theorem mem_foldl_insert {α : Type} [BEq α] [LawfulBEq α] {a : α} : ∀ {new seen : List α},
    a ∈ new.foldl (fun seen x => if x ∈ seen then seen else seen ++ [x]) seen
      ↔ a ∈ seen ∨ a ∈ new := by
  intro new
  induction new with
  | nil => intro seen; simp
  | cons x new ih =>
    intro seen
    rw [List.foldl_cons, ih, List.mem_cons]
    by_cases hx : x ∈ seen
    · rw [if_pos hx]
      constructor
      · rintro (h | h)
        · exact Or.inl h
        · exact Or.inr (Or.inr h)
      · rintro (h | rfl | h)
        · exact Or.inl h
        · exact Or.inl hx
        · exact Or.inr h
    · rw [if_neg hx, List.mem_append, List.mem_singleton, or_assoc]

/-- A reference is unresolved if a rule makes it and no rule has the name. -/
theorem mem_unresolved {rules : List Rule} {home name : String} :
    (home, name) ∈ unresolved rules ↔
      ∃ r ∈ rules, home = r.home ∧ name ∈ r.references ∧ ∀ r' ∈ rules, r'.name ≠ name := by
  rw [unresolved, mem_foldl_insert]
  simp only [List.not_mem_nil, false_or, List.mem_flatMap, List.mem_map, List.mem_filter,
    Bool.not_eq_true', List.any_eq_false, decide_eq_true_eq, Prod.mk.injEq]
  constructor
  · rintro ⟨r, hr, name', ⟨hname, hno⟩, rfl, rfl⟩
    exact ⟨r, hr, rfl, hname, hno⟩
  · rintro ⟨r, hr, rfl, hname, hno⟩
    exact ⟨r, hr, name, ⟨hname, hno⟩, rfl, rfl⟩

theorem unresolved_eq_nil_iff {rules : List Rule} :
    unresolved rules = [] ↔
      ∀ r ∈ rules, ∀ name ∈ r.references, name ∈ rules.map (·.name) := by
  rw [List.eq_nil_iff_forall_not_mem]
  constructor
  · intro h r hr name hname
    by_contra hno
    refine h (r.home, name) (mem_unresolved.mpr ⟨r, hr, rfl, hname, fun r' hr' heq => hno ?_⟩)
    exact heq ▸ List.mem_map_of_mem hr'
  · rintro h ⟨home, name⟩ hmem
    obtain ⟨r, hr, -, hname, hno⟩ := mem_unresolved.mp hmem
    obtain ⟨r', hr', heq⟩ := List.mem_map.mp (h r hr name hname)
    exact hno r' hr' heq

/-- The statements to report exist if the rules of the statements do. -/
theorem statementsOf_eq_ok {rules : List Rule} {homes : List String}
    (h : ∀ home ∈ homes, home ∈ rules.map (·.name)) :
    ∃ texts, statementsOf rules homes = .ok texts := by
  rw [statementsOf]
  have hreported : ∀ home ∈ homes.foldl
      (fun seen home => if home ∈ seen then seen else seen ++ [home]) [],
      home ∈ rules.map (·.name) :=
    fun home hmem => h home (by simpa using mem_foldl_insert.mp hmem)
  -- from here on it does not matter how the homes were collected
  revert hreported
  generalize homes.foldl (fun seen home => if home ∈ seen then seen else seen ++ [home]) [] = l
  intro hl
  induction l with
  | nil => exact ⟨[], rfl⟩
  | cons home rest ih =>
    obtain ⟨texts, htexts⟩ := ih fun x hx => hl x (List.mem_cons_of_mem _ hx)
    obtain ⟨r, hr, hname⟩ := List.mem_map.mp (hl home List.mem_cons_self)
    have hsome : (rules.find? (·.name = home)).isSome = true := by
      rw [List.find?_isSome]
      exact ⟨r, hr, by simpa using hname⟩
    obtain ⟨r', hr'⟩ := Option.isSome_iff_exists.mp hsome
    refine ⟨(home, r'.source) :: texts, ?_⟩
    rw [List.mapM_cons, htexts, hr']
    rfl

/-! ### Becoming a grammar -/

theorem checkReferences_eq_ok_iff {rules : List Rule} :
    checkReferences rules = .ok () ↔ unresolved rules = [] := by
  rcases hmissing : unresolved rules with _ | ⟨⟨home, name⟩, others⟩
  · simp only [checkReferences, hmissing]
  · refine iff_of_false (fun h => ?_) (List.cons_ne_nil _ _)
    rw [checkReferences, hmissing] at h
    dsimp only at h
    rcases htexts : statementsOf rules (((home, name) :: others).map (·.1)) with fault | texts
    · rw [htexts] at h
      cases h
    · rw [htexts] at h
      cases h

theorem checkReferences_of_ne_nil {rules : List Rule}
    (hhomes : ∀ r ∈ rules, r.home ∈ rules.map (·.name)) (h : unresolved rules ≠ []) :
    ∃ fault, checkReferences rules = .error (.grammar fault) ∧
      fault.cause.kind = .unresolvedReference := by
  rcases hmissing : unresolved rules with _ | ⟨⟨home, name⟩, others⟩
  · exact absurd hmissing h
  · have hreported : ∀ x ∈ ((home, name) :: others).map (·.1), x ∈ rules.map (·.name) := by
      intro x hx
      obtain ⟨⟨_, name'⟩, hpair, rfl⟩ := List.mem_map.mp hx
      rw [← hmissing] at hpair
      obtain ⟨r, hr, rfl, -, -⟩ := mem_unresolved.mp hpair
      exact hhomes r hr
    obtain ⟨texts, htexts⟩ := statementsOf_eq_ok hreported
    refine ⟨⟨.unresolved ((home, name) :: others) texts, texts.lookup home⟩, ?_, rfl⟩
    rw [checkReferences, hmissing]
    dsimp only
    rw [htexts]
    rfl

theorem freeze_of_isEmpty {b : Builder} (h : b.slots = []) :
    b.freeze = .error (.grammar ⟨.emptyGrammar, none⟩) := by
  rw [freeze, h]
  rfl

/-- When all slots are filled, the references are checked first and the node types afterwards. -/
theorem freeze_of_rules {b : Builder} {rules : List Rule} (hslots : b.slots ≠ [])
    (hrules : b.rules = .ok rules) :
    b.freeze = match checkReferences rules with
      | .error fault => .error fault
      | .ok () => (nodeTypes ((rules.filter (!·.isLifted)).map (·.name))).map (⟨rules, ·⟩) := by
  have hempty : b.slots.isEmpty = false := by simpa using hslots
  rw [freeze, hempty, hrules]
  rcases hcheck : checkReferences rules with fault | _ <;> simp only [hcheck, bind, Except.bind]
  · rfl
  · rcases htypes : nodeTypes ((rules.filter (!·.isLifted)).map (·.name)) with fault | types <;>
      simp only [htypes] <;> rfl

/-- What is known of a builder that becomes a grammar: its slots are filled, its references have
rules, and its names are enumerated. -/
theorem freeze_eq_ok {b : Builder} {g : Grammar} (h : b.freeze = .ok g) :
    b.rules = .ok g.rules ∧ unresolved g.rules = [] ∧ nodeTypes g.topLevel = .ok g.nodeTypes := by
  have hslots : b.slots ≠ [] := by
    intro hempty
    rw [freeze_of_isEmpty hempty] at h
    cases h
  rcases hrules : b.rules with fault | rules
  · have hempty : b.slots.isEmpty = false := by simpa using hslots
    rw [freeze, hempty, hrules] at h
    cases h
  · rw [freeze_of_rules hslots hrules] at h
    rcases hcheck : checkReferences rules with fault | _
    · rw [hcheck] at h
      cases h
    · rw [hcheck] at h
      dsimp only at h
      rcases htypes : nodeTypes ((rules.filter (!·.isLifted)).map (·.name)) with fault | types
      · rw [htypes] at h
        cases h
      · rw [htypes] at h
        cases h
        exact ⟨rfl, checkReferences_eq_ok_iff.mp hcheck, htypes⟩

/-- A reference without a rule keeps a builder from becoming a grammar, and is reported. -/
theorem freeze_of_unresolved {b : Builder} {rules : List Rule} (hrules : b.rules = .ok rules)
    (hhomes : ∀ r ∈ rules, r.home ∈ rules.map (·.name)) (h : unresolved rules ≠ []) :
    ∃ fault, b.freeze = .error (.grammar fault) ∧ fault.cause.kind = .unresolvedReference := by
  have hslots : b.slots ≠ [] := by
    intro hempty
    rw [Builder.rules, hempty] at hrules
    cases hrules
    exact h rfl
  obtain ⟨fault, hfault, hkind⟩ := checkReferences_of_ne_nil hhomes h
  refine ⟨fault, ?_, hkind⟩
  rw [freeze_of_rules hslots hrules, hfault]

end Builder
end Ebnf
