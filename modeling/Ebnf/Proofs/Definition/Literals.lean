import Ebnf.Proofs.Definition.Faults
import Ebnf.Proofs.Source.Splitting

/-!
# Literals within statements

Definitions are split at bars, their alternatives at commas, and what stands in a bracket again at
bars.  Pieces of a balanced text are balanced, and so is the inside of a bracket, so only the first
of these splits can fail.  A text is cut into statements only where no literal is open, and no
literal stays open at the end of the last one, so that one split does not end in a literal either.

## Main definitions

* `Unreadable.IsSplit` — the brackets or literals of a text do not match.
* `Primary.WellSplit`, `Definitions.WellSplit` — nothing in them could not be split.

## Main results

* `Definitions.wellSplit_read` — all splits in a balanced text succeed.
* `Definitions.kind_ne_of_fault?` — no fault in definitions is a literal without end.
* `kind_ne_of_faultOf?` — **no fault in the statements of a text is.**
-/

namespace Ebnf

open Source (Mode Closed dropBlanks splitTop findPlain? findPlainFrom?)

/-! ### Texts that cannot be split -/

/-- The brackets or literals of a text do not match. -/
def Unreadable.IsSplit (why : Unreadable) : Prop := ∃ fault text, why = .split fault text

theorem Unreadable.isSplit_of_kind {why : Unreadable} {rule : String}
    (h : (why.cause rule).kind = .unbalancedBracket ∨
      (why.cause rule).kind = .unterminatedLiteral) : why.IsSplit := by
  cases why with
  | split fault text => exact ⟨fault, text, rfl⟩
  | _ => rcases h with h | h <;> cases h

variable [Pattern.Engine]

/-- Nothing in the primary could not be split. -/
def Primary.WellSplit (p : Primary) : Prop := ∀ why ∈ p.unreadables, ¬why.IsSplit

/-- Nothing in the definitions could not be split. -/
def Definitions.WellSplit (d : Definitions) : Prop :=
  ∀ why ∈ Definitions.unreadables d, ¬why.IsSplit

theorem Primary.wellSplit_unreadable {why : Unreadable} (h : ¬why.IsSplit) :
    (Primary.unreadable why).WellSplit := by
  intro why' hwhy'
  rw [Primary.unreadables] at hwhy'
  rwa [List.mem_singleton.mp hwhy']

theorem Definitions.wellSplit_of_forall {d : Definitions}
    (h : ∀ alt ∈ d, ∀ p ∈ alt, p.WellSplit) : Definitions.WellSplit d := by
  intro why hwhy
  obtain ⟨alt, halt, p, hp, hwhy⟩ := Definitions.mem_unreadables_iff.mp hwhy
  exact h alt halt p hp why hwhy

/-! ### Reading -/

theorem wellSplit_readPattern (token : List Char) : (readPattern token).WellSplit := by
  rw [readPattern]
  split
  · exact Primary.wellSplit_unreadable (by rintro ⟨_, _, ⟨⟩⟩)
  · split
    · intro why hwhy
      rw [Primary.unreadables] at hwhy
      cases hwhy
    · exact Primary.wellSplit_unreadable (by rintro ⟨_, _, ⟨⟩⟩)

/-- All splits in a closed token succeed, if those in shorter texts do. -/
theorem wellSplit_readPrimary {token : List Char} (hclosed : Closed token)
    (ih : ∀ inner : List Char, inner.length < token.length → Closed inner →
      Definitions.WellSplit (readDefinitions inner)) : (readPrimary token).WellSplit := by
  -- all tokens but brackets are read without splitting
  have hnil : ∀ {p : Primary}, p.unreadables = [] → p.WellSplit := fun h why hwhy => by
    rw [h] at hwhy
    cases hwhy
  cases token with
  | nil =>
    rw [readPrimary]
    exact Primary.wellSplit_unreadable (by rintro ⟨_, _, ⟨⟩⟩)
  | cons c rest =>
    rw [readPrimary]
    split
    · split
      · exact hnil (by rw [Primary.unreadables])
      · exact Primary.wellSplit_unreadable (by rintro ⟨_, _, ⟨⟩⟩)
    · split
      · exact wellSplit_readPattern _
      · split
        · next bracket hopener =>
          split
          · next hend =>
            obtain rfl := Bracket.eq_opener_of_ofOpener? hopener
            -- between the brackets stands a shorter text, which is closed as well
            obtain ⟨inner, rfl, hinner⟩ := Source.eq_append_closer_of_bracketEnd? hclosed hend
            rw [List.dropLast_concat, Primary.WellSplit, Primary.unreadables]
            refine ih inner ?_ hinner
            rw [List.length_cons, List.length_append]
            omega
          · exact Primary.wellSplit_unreadable (by rintro ⟨_, _, ⟨⟩⟩)
        · split
          · exact Primary.wellSplit_unreadable (by rintro ⟨_, _, ⟨⟩⟩)
          · exact hnil (by rw [Primary.unreadables])

/-- All splits in a closed alternative succeed, if those in shorter texts do. -/
theorem wellSplit_of_mem_readAlternative {piece : List Char} {p : Primary} (hclosed : Closed piece)
    (ih : ∀ inner : List Char, inner.length < piece.length → Closed inner →
      Definitions.WellSplit (readDefinitions inner)) (hp : p ∈ readAlternative piece) :
    p.WellSplit := by
  by_cases hne : piece = []
  · rw [hne, readAlternative] at hp
    obtain rfl := List.mem_singleton.mp hp
    exact Primary.wellSplit_unreadable (by rintro ⟨_, _, ⟨⟩⟩)
  · obtain ⟨tokens, hsplit⟩ := hclosed.exists_splitTop ','
    rw [readAlternative_of_splitTop hne hsplit] at hp
    obtain ⟨token, htoken, rfl⟩ := List.mem_map.mp hp
    refine wellSplit_readPrimary (Source.solid_of_mem_splitTop hsplit token htoken).closed
      fun inner hlt => ih inner (Nat.lt_of_lt_of_le hlt ?_)
    exact Source.length_le_of_mem_splitTop hsplit htoken

/-- All splits in a closed text succeed, and so do those in the brackets in it, since what stands in
a bracket is closed too. -/
theorem Definitions.wellSplit_read {text : List Char} (h : Closed text) :
    Definitions.WellSplit (readDefinitions text) := by
  -- induction on the length of the text, which every bracket reduces
  induction hn : text.length using Nat.strongRecOn generalizing text with
  | ind n ih =>
    obtain ⟨pieces, hsplit⟩ := h.exists_splitTop '|'
    rw [readDefinitions_of_splitTop hsplit]
    refine Definitions.wellSplit_of_forall fun alt halt p hp => ?_
    obtain ⟨piece, hpiece, rfl⟩ := List.mem_map.mp halt
    have hshort := Source.length_le_of_mem_splitTop hsplit hpiece
    have hclosed := (Source.solid_of_mem_splitTop hsplit piece hpiece).closed
    refine wellSplit_of_mem_readAlternative hclosed (fun inner hlt hinner => ih _ ?_ hinner rfl) hp
    omega

/-! ### Definitions -/

omit [Pattern.Engine] in
/-- A text that cannot be split is at fault with a bracket if it ends outside literals. -/
theorem kind_split_ne {sep : Char} {text : List Char} {fault : Source.SplitFault}
    (hplain : Mode.after .plain text = .plain) (h : splitTop sep text = .error fault)
    (written : String) : (Cause.split fault written).kind ≠ .unterminatedLiteral := by
  cases fault with
  | openLiteral =>
    cases Source.splitTop_eq_error_iff.mp h with
    | literal h =>
      obtain ⟨before, after, opened, rfl, hbefore, hopen⟩ := h
      have hscan := Source.after_of_scan (Source.scan_eq_leavesOpen_iff.mpr hbefore)
      rw [Mode.after_append, hscan] at hplain
      exact absurd hplain (hopen after List.prefix_rfl)
  | unexpectedCloser c => rintro ⟨⟩
  | missingCloser b => rintro ⟨⟩

/-- No fault in definitions is a literal without end, if their text does not end in one. -/
theorem Definitions.kind_ne_of_fault? {next : String → Nat → Nat} {parent : String} {k : Nat}
    {cause : Cause} {text : List Char} (hplain : Mode.after .plain text = .plain)
    (h : Definitions.fault? next parent k (readDefinitions text) = some cause) :
    cause.kind ≠ .unterminatedLiteral := by
  rcases hsplit : splitTop '|' text with fault | pieces
  · rw [readDefinitions_of_error hsplit, Definitions.fault?, Primary.faultIn?, Primary.fault?] at h
    cases h
    exact kind_split_ne hplain hsplit _
  · obtain ⟨why, hwhy, rule, rfl⟩ := Definitions.exists_cause_of_fault? h
    have hclosed := (Source.exists_splitTop_iff.mp ⟨pieces, hsplit⟩).closed
    exact fun hkind =>
      Definitions.wellSplit_read hclosed why hwhy (Unreadable.isSplit_of_kind (Or.inr hkind))

/-! ### Statements -/

omit [Pattern.Engine] in
/-- The modes behind a place that was found are those after the text. -/
theorem after_drop_of_findPlainFrom? {target : Char} : ∀ {text : List Char} {mode : Mode}
    {cut : Nat}, findPlainFrom? target mode text = some cut →
    Mode.after .plain (text.drop (cut + 1)) = mode.after text := by
  intro text
  induction text with
  | nil => intro mode cut h; cases h
  | cons c text ih =>
    intro mode cut h
    rw [findPlainFrom?] at h
    split at h
    · next hc =>
      obtain ⟨rfl, -, hquote⟩ := hc
      cases h
      rw [Mode.after_cons, Mode.next_plain hquote]
      rfl
    · obtain ⟨n, hn, rfl⟩ := Option.map_eq_some_iff.mp h
      exact ih hn

/-- No fault in a statement is a literal without end, if the statement does not end in one. -/
theorem kind_ne_of_faultOf? {declared earlier : List String} {raw : List Char} {fault : Fault}
    (hplain : Mode.after .plain raw = .plain) (h : faultOf? declared earlier raw = some fault) :
    fault.cause.kind ≠ .unterminatedLiteral := by
  rcases hread : Statement.read raw with fault' | s
  · rw [faultOf?, hread] at h
    cases h
    have hkind := Statement.kind_of_read hread
    rintro heq
    rw [heq] at hkind
    exact absurd hkind (by decide)
  · rw [faultOf?_of_read hread] at h
    split at h
    · cases h
      rintro ⟨⟩
    · obtain ⟨cause, hcause, rfl⟩ := Option.map_eq_some_iff.mp h
      obtain ⟨cut, hcut, hdefinitions⟩ := Statement.exists_cut_of_read hread
      rw [hdefinitions] at hcause
      refine Definitions.kind_ne_of_fault? ?_ hcause
      rw [after_drop_of_findPlainFrom? hcut]
      exact (Source.after_dropBlanksFrom _ _).trans hplain

end Ebnf
