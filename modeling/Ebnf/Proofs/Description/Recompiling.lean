import Ebnf.Proofs.Description.Printing
import Ebnf.Proofs.StatementAtFault

/-!
# Reading a description

The statements of a description are the written forms of its rules, lifted rules included.  They
declare what the rules are called and refer to what the rules refer to, so nothing is wrong with
them, and where there are no brackets the rules come back as they were.

## Main definitions

* `Rule.IsWrittenAs` — the statement is the written form of the rule.

## Main results

* `wellFormed_of_isWrittenAs`, `Grammar.allResolved_rulesOf` — the statements are well-formed, and
  their references have rules.
* `rulesOf_of_isWrittenAs` — the rules that are made of them.
* `Rule.eq_of_liftTo_written` — **rules without brackets come back as they were.**
-/

namespace Ebnf

open Source (dropBlanks)

variable [Pattern.Engine]

/-! ### Statements of a description -/

/-- The statement is the written form of the rule, perhaps with layout in it. -/
structure Rule.IsWrittenAs (r : Rule) (raw : List Char) : Prop where
  isStatement : IsStatement r.name r.written (dropBlanks raw)
  read_eq : Statement.read raw = .ok r.printed

theorem Rule.Printable.isWrittenAs {r : Rule} (h : r.Printable) {raw : List Char}
    (hraw : dropBlanks raw = r.printed.text.toList) : r.IsWrittenAs raw := by
  have hstatement : IsStatement r.name r.written (dropBlanks raw) := hraw ▸ h.isStatement
  refine ⟨hstatement, ?_⟩
  rw [hstatement.read_eq, hraw, String.ofList_toList]
  rfl

theorem forall₂_isWrittenAs : ∀ {rules : List Rule} {raws : List (List Char)},
    (∀ r ∈ rules, r.Printable) → raws.map dropBlanks = rules.map (·.printed.text.toList) →
    List.Forall₂ Rule.IsWrittenAs rules raws := by
  intro rules
  induction rules with
  | nil =>
    intro raws _ h
    obtain rfl := List.map_eq_nil_iff.mp h
    exact .nil
  | cons r rules ih =>
    intro raws hprintable h
    obtain ⟨hr, hrules⟩ := List.forall_mem_cons.mp hprintable
    cases raws with
    | nil => cases h
    | cons raw raws =>
      obtain ⟨hraw, hraws⟩ := List.cons.inj h
      exact .cons (hr.isWrittenAs hraw) (ih hrules hraws)

section

variable {rules : List Rule} {raws : List (List Char)}

theorem forall₂_read (h : List.Forall₂ Rule.IsWrittenAs rules raws) :
    List.Forall₂ (fun raw s => Statement.read raw = .ok s) raws (rules.map Rule.printed) :=
  List.forall₂_map_right_iff.mpr (h.flip.imp fun _ _ hwritten => hwritten.read_eq)

/-- The statements declare the rules. -/
theorem map_declaredName?_of_isWrittenAs (h : List.Forall₂ Rule.IsWrittenAs rules raws) :
    raws.map declaredName? = (rules.map (·.name)).map some := by
  induction h with
  | nil => rfl
  | cons hwritten _ ih =>
    rw [List.map_cons, List.map_cons, List.map_cons, ih,
      declaredName?_of_isStatement hwritten.isStatement]

theorem declaredNames_of_isWrittenAs (h : List.Forall₂ Rule.IsWrittenAs rules raws) :
    declaredNames raws = rules.map (·.name) := by
  rw [declaredNames_of_read (forall₂_read h), List.map_map]
  rfl

/-- Statements as which rules are written are well formed, if the rules can be printed and have
different names. -/
theorem wellFormed_of_isWrittenAs (h : List.Forall₂ Rule.IsWrittenAs rules raws)
    (hnodup : (rules.map (·.name)).Nodup) : WellFormed raws := by
  refine ⟨fun raw hraw => ?_, ?_⟩
  · obtain ⟨r, -, hwritten⟩ := exists_of_forall₂_right h hraw
    exact ⟨r.name, r.written, hwritten.isStatement⟩
  · rw [declaredNames_of_isWrittenAs h]
    exact hnodup

/-- The rules of statements as which rules are written, block by block. -/
theorem rulesOf_of_isWrittenAs (h : List.Forall₂ Rule.IsWrittenAs rules raws) :
    rulesOf raws = rules.flatMap fun r => r.printed.block (rules.map (·.name)) := by
  rw [rulesOf, declaredNames_of_isWrittenAs h]
  generalize rules.map (·.name) = names
  induction h with
  | nil => rfl
  | cons hwritten _ ih =>
    rw [List.flatMap_cons, List.flatMap_cons, ih, blockOf_of_read hwritten.read_eq]

end

/-! ### References -/

theorem Atom.references_written (atom : Atom) :
    atom.written.references = atom.reference?.toList := by
  cases atom with
  | terminal text => rfl
  | pattern p => rfl
  | reference name =>
    rw [written, Primary.references, String.ofList_toList]
    rfl
  | lifted bracket name =>
    simp [written, Primary.references, Definitions.references, Primary.allReferences, reference?]

/-- The written form refers to what the rule refers to. -/
theorem Rule.mem_references_written {r : Rule} {name : String} :
    name ∈ Definitions.references r.written ↔ name ∈ r.references := by
  have hall : ∀ atoms : Alternative,
      Primary.allReferences (atoms.map Atom.written) = atoms.filterMap Atom.reference? := by
    intro atoms
    induction atoms with
    | nil => rfl
    | cons atom rest ih =>
      rw [List.map_cons, Primary.allReferences, ih, Atom.references_written]
      cases h : atom.reference? <;> simp [h]
  have hd : ∀ alts : List Alternative, Definitions.references (alts.map (·.map Atom.written))
      = alts.flatten.filterMap Atom.reference? := by
    intro alts
    induction alts with
    | nil => rfl
    | cons alt rest ih =>
      rw [List.map_cons, Definitions.references, hall, ih, List.flatten_cons, List.filterMap_append]
  rw [written, hd, references]

namespace Grammar

variable {g : Grammar} {raws : List (List Char)}

/-- In a description all references have rules, as they have in the grammar. -/
theorem allResolved_rulesOf (hprintable : ∀ r ∈ g.rules, r.Printable) (hresolved : g.Resolved)
    (h : List.Forall₂ Rule.IsWrittenAs g.rules raws) : AllResolved (rulesOf raws) := by
  rw [rulesOf_of_isWrittenAs h]
  have hblocks : ∀ r ∈ g.rules, r.printed.block (g.rules.map (·.name)) ⊆
      g.rules.flatMap fun r => r.printed.block (g.rules.map (·.name)) :=
    fun r hr r' hr' => List.mem_flatMap.mpr ⟨r, hr, hr'⟩
  intro r' hr' name hname
  obtain ⟨r, hr, hblock⟩ := List.mem_flatMap.mp hr'
  have hmakes : r.printed.Makes (r.printed.block (g.rules.map (·.name))) :=
    Statement.makes_block _ (hprintable r hr).writtenAs.readable
  rcases hmakes.mem_references hblock hname with hwritten | hmem
  · -- what is written is the name of a rule, which has a statement of its own
    have hmem := hresolved r hr name (Rule.mem_references_written.mp hwritten)
    obtain ⟨r'', hr'', rfl⟩ := List.mem_map.mp hmem
    exact List.map_subset _ (hblocks r'' hr'') List.mem_cons_self
  · exact List.map_subset _ (hblocks r hr) hmem

end Grammar

/-! ### Rules without brackets -/

section

variable {owner parent : String}

theorem Alternative.eq_of_allLiftTo_written : ∀ {atoms atoms' : Alternative} {rules : List Rule},
    Primary.AllLiftTo owner parent (atoms.map Atom.written) atoms' rules →
    (∀ atom ∈ atoms, atom.bracket? = none) → atoms' = atoms ∧ rules = [] := by
  intro atoms
  induction atoms with
  | nil =>
    intro atoms' rules h _
    cases h
    exact ⟨rfl, rfl⟩
  | cons atom rest ih =>
    intro atoms' rules h hatoms
    obtain ⟨hatom, hrest⟩ := List.forall_mem_cons.mp hatoms
    cases h with
    | cons hhead htail =>
      rcases Atom.eq_or_lifted_of_liftsTo_written hhead with ⟨-, rfl, rfl⟩ | ⟨_, _, _, rfl, -, -⟩
      swap
      · cases hatom
      obtain ⟨rfl, rfl⟩ := ih htail hrest
      exact ⟨rfl, rfl⟩

/-- Where there are no brackets, alternatives come back as they were, and nothing is lifted. -/
theorem Rule.eq_of_liftTo_written : ∀ {alts alts' : List Alternative} {rules : List Rule},
    Definitions.LiftTo owner parent (alts.map (·.map Atom.written)) alts' rules →
    (∀ alt ∈ alts, ∀ atom ∈ alt, atom.bracket? = none) → alts' = alts ∧ rules = [] := by
  intro alts
  induction alts with
  | nil =>
    intro alts' rules h _
    cases h
    exact ⟨rfl, rfl⟩
  | cons alt rest ih =>
    intro alts' rules h halts
    obtain ⟨halt, hrest⟩ := List.forall_mem_cons.mp halts
    cases h with
    | cons hhead htail =>
      obtain ⟨rfl, rfl⟩ := Alternative.eq_of_allLiftTo_written hhead halt
      obtain ⟨rfl, rfl⟩ := ih htail hrest
      exact ⟨rfl, rfl⟩

end

end Ebnf
