import Ebnf.Proofs.Description.Printing
import Ebnf.Proofs.Match.Laws

/-!
# Replacing parts of definitions

What may stand in the place of a part of definitions may do so wherever the part stands: among other
primaries, among other alternatives and in a bracket.  It has to be read alike whatever references
are read as, must not refer to other names, and has to be writable where the part was.

## Main definitions

* `Primary.Writable`, `Primary.AllWritable`, `Definitions.Writable` — what can be read back from its
  text.
* `Primary.ReplaceableBy`, `Definitions.ReplaceableBy` — what may stand in the place of primaries,
  and of alternatives.
* `Definitions.Replaced` — definitions replaced somewhere in definitions.

## Main results

* `Definitions.Replaced.replaceableBy` — **replacing may be done in any place.**
-/

namespace Ebnf

variable [Pattern.Engine]

/-! ### Writable definitions -/

/-- The primary can be read back from its text. -/
def Primary.Writable (p : Primary) : Prop := p.WrittenAs p.chars

/-- The primaries of an alternative can be read back from their text. -/
def Primary.AllWritable (ps : List Primary) : Prop :=
  Primary.AllWrittenAs ps (Primary.listChars ps)

/-- The definitions can be read back from their text. -/
def Definitions.Writable (d : Definitions) : Prop := Definitions.WrittenAs d (Definitions.chars d)

mutual

theorem Primary.WrittenAs.text_eq : ∀ {p text}, Primary.WrittenAs p text → text = p.chars
  | _, _, .terminal _ => by rw [Primary.chars]
  | _, _, .pattern h hp => (chars_pattern h hp).symm
  | _, _, .name _ => by rw [Primary.chars]
  | _, _, .bracketed _ h => by rw [Primary.chars, ← h.text_eq]

theorem Primary.AllWrittenAs.text_eq : ∀ {ps text}, Primary.AllWrittenAs ps text →
    text = Primary.listChars ps
  | _, _, .single h => by rw [Primary.listChars, ← h.text_eq]
  | _, _, .cons h hrest => by
    rw [Primary.listChars, ← h.text_eq, ← hrest.text_eq]
    rintro rfl
    cases hrest

/-- Definitions are written in one way only, once there is no layout. -/
theorem Definitions.WrittenAs.text_eq : ∀ {d text}, Definitions.WrittenAs d text →
    text = Definitions.chars d
  | _, _, .single h => by rw [Definitions.chars, ← h.text_eq]
  | _, _, .cons h hrest => by
    rw [Definitions.chars, ← h.text_eq, ← hrest.text_eq]
    rintro rfl
    cases hrest

end

theorem Primary.WrittenAs.writable {p : Primary} {text : List Char} (h : p.WrittenAs text) :
    p.Writable := by
  rwa [Writable, ← h.text_eq]

theorem Primary.AllWrittenAs.allWritable {ps : List Primary} {text : List Char}
    (h : Primary.AllWrittenAs ps text) : Primary.AllWritable ps := by
  rwa [AllWritable, ← h.text_eq]

theorem Definitions.WrittenAs.writable {d : Definitions} {text : List Char}
    (h : Definitions.WrittenAs d text) : Definitions.Writable d := by
  rwa [Writable, ← h.text_eq]

theorem Primary.AllWrittenAs.writable_of_mem : ∀ {ps text}, Primary.AllWrittenAs ps text →
    ∀ p ∈ ps, p.Writable
  | _, _, .single h => List.forall_mem_singleton.mpr h.writable
  | _, _, .cons h hrest => List.forall_mem_cons.mpr ⟨h.writable, hrest.writable_of_mem⟩

theorem Definitions.WrittenAs.allWritable_of_mem : ∀ {d text}, Definitions.WrittenAs d text →
    ∀ alt ∈ d, Primary.AllWritable alt
  | _, _, .single h => List.forall_mem_singleton.mpr h.allWritable
  | _, _, .cons h hrest => List.forall_mem_cons.mpr ⟨h.allWritable, hrest.allWritable_of_mem⟩

theorem Primary.writable_bracketed {bracket : Bracket} {d : Definitions} :
    (Primary.bracketed bracket d).Writable ↔ Definitions.Writable d := by
  constructor
  · intro h
    rw [Writable] at h
    generalize (Primary.bracketed bracket d).chars = text at h
    cases h with
    | bracketed _ h => exact h.writable
  · intro h
    rw [Writable, chars]
    exact .bracketed bracket h

/-- A terminal of no characters is a pair of quotes. -/
theorem Primary.writable_empty : (Primary.terminal []).Writable := by
  rw [Writable, chars]
  exact .terminal .nil

theorem Primary.allWritable_iff {ps : List Primary} :
    Primary.AllWritable ps ↔ ps ≠ [] ∧ ∀ p ∈ ps, p.Writable := by
  constructor
  · intro h
    refine ⟨?_, h.writable_of_mem⟩
    rintro rfl
    cases h
  · rintro ⟨hne, h⟩
    exact allWrittenAs_chars hne h

theorem Definitions.writable_iff {d : Definitions} :
    Definitions.Writable d ↔ d ≠ [] ∧ ∀ alt ∈ d, Primary.AllWritable alt := by
  constructor
  · intro h
    refine ⟨?_, h.allWritable_of_mem⟩
    rintro rfl
    cases h
  · rintro ⟨hne, h⟩
    exact writtenAs_chars hne h

theorem Primary.allWritable_single {p : Primary} : Primary.AllWritable [p] ↔ p.Writable := by
  rw [allWritable_iff, List.forall_mem_singleton]
  exact and_iff_right (List.cons_ne_nil _ _)

theorem Definitions.writable_single {alt : List Primary} :
    Definitions.Writable [alt] ↔ Primary.AllWritable alt := by
  rw [writable_iff, List.forall_mem_singleton]
  exact and_iff_right (List.cons_ne_nil _ _)

/-! ### References -/

theorem Primary.allReferences_append (ps qs : List Primary) :
    Primary.allReferences (ps ++ qs) = Primary.allReferences ps ++ Primary.allReferences qs := by
  induction ps with
  | nil => rfl
  | cons p ps ih =>
    rw [List.cons_append, allReferences, allReferences, ih, List.append_assoc]

theorem Definitions.references_append (d d' : Definitions) :
    Definitions.references (d ++ d')
      = Definitions.references d ++ Definitions.references d' := by
  induction d with
  | nil => rfl
  | cons alt d ih => rw [List.cons_append, references, references, ih, List.append_assoc]

omit [Pattern.Engine] in
theorem append_subset_append_middle {α : Type} {l l' : List α} (h : l' ⊆ l)
    {before after : List α} : before ++ l' ++ after ⊆ before ++ l ++ after := by
  intro a ha
  simp only [List.mem_append] at ha ⊢
  exact ha.imp_left (Or.imp_right (@h a))

/-! ### Replacing -/

/-- The second primaries may stand in the place of the first: they read the same, whatever
references stand for, refer to nothing else, and can be written if these can. -/
structure Primary.ReplaceableBy (ps ps' : List Primary) : Prop where
  ne_nil : ps' ≠ []
  sequence_eq : ∀ refer, Nested.sequence refer ps = Nested.sequence refer ps'
  references : Primary.allReferences ps' ⊆ Primary.allReferences ps
  writable : (∀ p ∈ ps, p.Writable) → ∀ p ∈ ps', p.Writable

/-- The second alternatives may stand in the place of the first: they read the same, whatever
references stand for, refer to nothing else, and can be written if these can. -/
structure Definitions.ReplaceableBy (d d' : Definitions) : Prop where
  ne_nil : d' ≠ []
  definitions_eq : ∀ refer, Nested.definitions refer d = Nested.definitions refer d'
  references : Definitions.references d' ⊆ Definitions.references d
  writable : (∀ alt ∈ d, Primary.AllWritable alt) → ∀ alt ∈ d', Primary.AllWritable alt

namespace Primary.ReplaceableBy

variable {ps ps' : List Primary}

/-- Primaries may be replaced among others. -/
theorem within (h : Primary.ReplaceableBy ps ps') (left right : List Primary) :
    Primary.ReplaceableBy (left ++ ps ++ right) (left ++ ps' ++ right) where
  ne_nil := List.append_ne_nil_of_left_ne_nil (List.append_ne_nil_of_right_ne_nil _ h.ne_nil) _
  sequence_eq refer := by
    rw [Nested.sequence_append, Nested.sequence_append, h.sequence_eq, ← Nested.sequence_append,
      ← Nested.sequence_append]
  references := by
    simp only [Primary.allReferences_append]
    exact append_subset_append_middle h.references
  writable hps := by
    simp only [List.forall_mem_append] at hps ⊢
    exact ⟨⟨hps.1.1, h.writable hps.1.2⟩, hps.2⟩

/-- Primaries may be replaced in an alternative. -/
theorem alternative (h : Primary.ReplaceableBy ps ps') :
    Definitions.ReplaceableBy [ps] [ps'] where
  ne_nil := List.cons_ne_nil _ _
  definitions_eq refer := by
    rw [Nested.definitions_singleton, Nested.definitions_singleton, h.sequence_eq]
  references := by
    simpa [Definitions.references] using h.references
  writable hps := by
    simp only [List.forall_mem_singleton, Primary.allWritable_iff] at hps ⊢
    exact ⟨h.ne_nil, h.writable hps.2⟩

end Primary.ReplaceableBy

namespace Definitions

variable {d d' : Definitions}

/-- Alternatives may be replaced among others. -/
theorem ReplaceableBy.among (h : ReplaceableBy d d') (before after : Definitions) :
    ReplaceableBy (before ++ d ++ after) (before ++ d' ++ after) where
  ne_nil := List.append_ne_nil_of_left_ne_nil (List.append_ne_nil_of_right_ne_nil _ h.ne_nil) _
  definitions_eq refer := by
    rw [Nested.definitions_append, Nested.definitions_append, h.definitions_eq,
      ← Nested.definitions_append, ← Nested.definitions_append]
  references := by
    simp only [references_append]
    exact append_subset_append_middle h.references
  writable hd := by
    simp only [List.forall_mem_append] at hd ⊢
    exact ⟨⟨hd.1.1, h.writable hd.1.2⟩, hd.2⟩

/-- Definitions may be replaced in a bracket. -/
theorem ReplaceableBy.bracketed (h : ReplaceableBy d d') (bracket : Bracket) :
    Primary.ReplaceableBy [.bracketed bracket d] [.bracketed bracket d'] where
  ne_nil := List.cons_ne_nil _ _
  sequence_eq refer := by
    rw [Nested.sequence_singleton, Nested.sequence_singleton]
    cases bracket with
    | group => rw [Nested.primary_group, Nested.primary_group, h.definitions_eq]
    | optional => rw [Nested.primary_optional, Nested.primary_optional, h.definitions_eq]
    | repetition => rw [Nested.primary_repetition, Nested.primary_repetition, h.definitions_eq]
  references := by
    simpa [Primary.allReferences, Primary.references] using h.references
  writable hd := by
    simp only [List.forall_mem_singleton, Primary.writable_bracketed, writable_iff] at hd ⊢
    exact ⟨h.ne_nil, h.writable hd.2⟩

/-- Somewhere in the definitions, at any depth of brackets, definitions are replaced by ones that
`R` relates to them. -/
inductive Replaced (R : Definitions → Definitions → Prop) : Definitions → Definitions → Prop
  /-- The definitions as a whole. -/
  | here {d d' : Definitions} (h : R d d') : Replaced R d d'
  /-- Those in a bracket of one of the alternatives. -/
  | inside (before after : Definitions) (left right : List Primary) (bracket : Bracket)
    {inner inner' : Definitions} (h : Replaced R inner inner') :
    Replaced R (before ++ (left ++ .bracketed bracket inner :: right) :: after)
      (before ++ (left ++ .bracketed bracket inner' :: right) :: after)

/-- **Replacing may be done in any place**, if it may be done at the outside. -/
theorem Replaced.replaceableBy {R : Definitions → Definitions → Prop}
    (hR : ∀ d d', R d d' → ReplaceableBy d d') (h : Replaced R d d') : ReplaceableBy d d' := by
  induction h with
  | here h => exact hR _ _ h
  | inside before after left right bracket _ ih =>
    simpa using ((ih.bracketed bracket).within left right).alternative.among before after

end Definitions

end Ebnf
