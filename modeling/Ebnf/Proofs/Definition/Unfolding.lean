import Ebnf.Proofs.Compile
import Ebnf.Proofs.Definition.Syntax

/-!
# Statements and their syntax trees

Adding a statement to a new builder succeeds if and only if the statement is a name, an equals sign
and definitions.  Nothing of what is written gets lost in the rules: putting the alternatives of a
bracket's rule in the place of the bracket gives the definitions back, with the texts of terminals
in the place of what stands between their quotes.

## Main definitions

* `IsStatement` — a text that is a statement.
* `Definitions.unescaped` — definitions with the texts of terminals.
* `Atom.UnfoldsTo`, `Alternative.UnfoldsTo`, `Alternative.AllUnfoldTo` — what is left of rules when
  brackets are put back.

## Main results

* `Definitions.LiftTo.allUnfoldTo` — lifted definitions unfold to the definitions.
* `Build.statement_spec` — **which statements can be added, and what their rules say.**
-/

namespace Ebnf

open Builder (liftedName)
open Source (unescape dropBlanks findPlain? findPlainFrom?)

/-- A character is found behind a text without quotes in which it does not stand. -/
theorem findPlainFrom?_append {target : Char} (htarget : target ≠ '"') (rest : List Char) :
    ∀ {before : List Char}, (∀ c ∈ before, c ≠ '"' ∧ c ≠ target) →
      findPlainFrom? target .plain (before ++ target :: rest) = some before.length := by
  intro before
  induction before with
  | nil =>
    intro _
    rw [List.nil_append, findPlainFrom?, if_pos ⟨rfl, rfl, htarget⟩]
    rfl
  | cons c before ih =>
    intro h
    obtain ⟨hquote, hne⟩ := h c List.mem_cons_self
    rw [List.cons_append, findPlainFrom?, if_neg (fun hc => hne hc.2.1),
      Source.Mode.next_plain hquote, ih fun d hd => h d (List.mem_cons_of_mem _ hd)]
    rfl

/-- The place found is one of the character. -/
theorem eq_append_of_findPlainFrom? {target : Char} : ∀ {text : List Char} {mode : Source.Mode}
    {cut : Nat}, findPlainFrom? target mode text = some cut →
    text = text.take cut ++ target :: text.drop (cut + 1) := by
  intro text
  induction text with
  | nil => intro mode cut h; cases h
  | cons c text ih =>
    intro mode cut h
    rw [findPlainFrom?] at h
    split at h
    · next hc =>
      cases h
      rw [hc.2.1]
      rfl
    · obtain ⟨n, hn, rfl⟩ := Option.map_eq_some_iff.mp h
      exact congrArg (c :: ·) (ih hn)

section AnyEngine

variable [Pattern.Engine]

/-! ### Statements -/

/-- The text is a statement: a name, an equals sign and definitions. -/
def IsStatement (name : String) (d : Definitions) (text : List Char) : Prop :=
  ∃ rest, text = name.toList ++ '=' :: rest ∧ IsName name.toList ∧ Definitions.WrittenAs d rest

/-- A statement is read from its text: the equals sign that is looked for is the one behind the
name. -/
theorem IsStatement.read_eq {raw : List Char} {name : String} {d : Definitions}
    (h : IsStatement name d (dropBlanks raw)) :
    Statement.read raw = .ok ⟨name, d, String.ofList (dropBlanks raw)⟩ := by
  obtain ⟨rest, htext, ⟨hne, hfree⟩, hd⟩ := h
  -- nothing in the name hides the equals sign or stands for it
  have hplain : ∀ c ∈ name.toList, c ≠ '"' ∧ c ≠ '=' := by
    refine fun c hc => ⟨?_, ?_⟩ <;> rintro rfl <;> exact hfree _ hc (by decide)
  -- so the first equals sign that is not in a literal is the one behind the name
  have hcut : findPlain? '=' (dropBlanks raw) = some name.toList.length := by
    rw [htext]
    exact findPlainFrom?_append (by decide) rest hplain
  have hname : (dropBlanks raw).take name.toList.length = name.toList := by
    rw [htext, List.take_left]
  have hrest : (dropBlanks raw).drop (name.toList.length + 1) = rest := by
    rw [htext, ← List.drop_drop, List.drop_left]
    rfl
  rw [Statement.read]
  dsimp only
  rw [hcut]
  split
  · next hnone => cases hnone
  · next hzero => exact absurd (List.length_eq_zero_iff.mp (Option.some.inj hzero)) hne
  · next cut _ heq =>
    cases heq
    rw [hname, reservedCharacter?_eq_none_iff.mpr hfree, hrest, hd.read_eq, String.ofList_toList]

/-- A statement that can be read is written as its text. -/
theorem isStatement_of_read {raw : List Char} {s : Statement} (h : Statement.read raw = .ok s)
    (hs : Definitions.Readable s.definitions) :
    IsStatement s.name s.definitions (dropBlanks raw) := by
  rw [Statement.read] at h
  dsimp only at h
  split at h
  · cases h
  · cases h
  · next cut hne hcut =>
    split at h
    · cases h
    · next hfree =>
      cases h
      -- the text is cut at the first equals sign, and before it stands the name
      have htext := eq_append_of_findPlainFrom? hcut
      have hname : (dropBlanks raw).take cut ≠ [] := by
        intro hnil
        rcases List.take_eq_nil_iff.mp hnil with hzero | hempty
        · exact hne hzero
        · rw [hempty] at htext
          simp at htext
      refine ⟨(dropBlanks raw).drop (cut + 1), ?_, ⟨?_, ?_⟩, Definitions.writtenAs_read hs⟩
      · rwa [String.toList_ofList]
      · rwa [String.toList_ofList]
      · rw [String.toList_ofList]
        exact reservedCharacter?_eq_none_iff.mp hfree

/-! ### Unfolding -/

mutual

/-- The primary with the text of a terminal in the place of the inside of its literal. -/
def Primary.unescaped : Primary → Primary
  | .terminal body => .terminal (unescape body)
  | .pattern p => .pattern p
  | .name name => .name name
  | .bracketed bracket inner => .bracketed bracket (Definitions.unescaped inner)
  | .unreadable why => .unreadable why

/-- The same for the primaries of an alternative. -/
def Primary.allUnescaped : List Primary → List Primary
  | [] => []
  | p :: rest => p.unescaped :: Primary.allUnescaped rest

/-- The same for definitions, in all their brackets. -/
def Definitions.unescaped : List (List Primary) → List (List Primary)
  | [] => []
  | alt :: rest => Primary.allUnescaped alt :: Definitions.unescaped rest

end

mutual

/-- Putting the alternatives of the rules in the place of brackets makes the primary of the atom. -/
inductive Atom.UnfoldsTo (rules : List Rule) : Atom → Primary → Prop
  | terminal (text : String) : Atom.UnfoldsTo rules (.terminal text) (.terminal text.toList)
  | pattern (p : Pattern) : Atom.UnfoldsTo rules (.pattern p) (.pattern p)
  | reference (name : String) : Atom.UnfoldsTo rules (.reference name) (.name name.toList)
  | lifted {bracket : Bracket} {name : String} {r : Rule} {inner : List (List Primary)}
    (hfind : rules.find? (·.name = name) = some r)
    (h : Alternative.AllUnfoldTo rules r.alts inner) :
    Atom.UnfoldsTo rules (.lifted bracket name) (.bracketed bracket inner)

/-- The same for the atoms of an alternative, one after the other. -/
inductive Alternative.UnfoldsTo (rules : List Rule) : Alternative → List Primary → Prop
  | nil : Alternative.UnfoldsTo rules [] []
  | cons {atom : Atom} {p : Primary} {atoms : Alternative} {ps : List Primary}
    (h : Atom.UnfoldsTo rules atom p) (hrest : Alternative.UnfoldsTo rules atoms ps) :
    Alternative.UnfoldsTo rules (atom :: atoms) (p :: ps)

/-- The same for alternatives, in order. -/
inductive Alternative.AllUnfoldTo (rules : List Rule) :
    List Alternative → List (List Primary) → Prop
  | nil : Alternative.AllUnfoldTo rules [] []
  | cons {alt : Alternative} {ps : List Primary} {alts : List Alternative} {d : List (List Primary)}
    (h : Alternative.UnfoldsTo rules alt ps) (hrest : Alternative.AllUnfoldTo rules alts d) :
    Alternative.AllUnfoldTo rules (alt :: alts) (ps :: d)

end

section Unfolding

variable {rules : List Rule} {owner : String}

mutual

theorem Atom.UnfoldsTo.unique : ∀ {atom p p'}, Atom.UnfoldsTo rules atom p →
    Atom.UnfoldsTo rules atom p' → p = p'
  | _, _, _, .terminal _, .terminal _ => rfl
  | _, _, _, .pattern _, .pattern _ => rfl
  | _, _, _, .reference _, .reference _ => rfl
  | _, _, _, .lifted hfind h, .lifted hfind' h' => by
    obtain rfl := Option.some.inj (hfind.symm.trans hfind')
    rw [h.unique h']

theorem Alternative.UnfoldsTo.unique : ∀ {alt ps ps'}, Alternative.UnfoldsTo rules alt ps →
    Alternative.UnfoldsTo rules alt ps' → ps = ps'
  | _, _, _, .nil, .nil => rfl
  | _, _, _, .cons h hrest, .cons h' hrest' => by rw [h.unique h', hrest.unique hrest']

theorem Alternative.AllUnfoldTo.unique : ∀ {alts d d'}, Alternative.AllUnfoldTo rules alts d →
    Alternative.AllUnfoldTo rules alts d' → d = d'
  | _, _, _, .nil, .nil => rfl
  | _, _, _, .cons h hrest, .cons h' hrest' => by rw [h.unique h', hrest.unique hrest']

end

mutual

theorem Primary.LiftsTo.unfoldsTo : ∀ {parent p atom made},
    Primary.LiftsTo owner parent p atom made →
    (∀ r ∈ made, rules.find? (·.name = r.name) = some r) → Atom.UnfoldsTo rules atom p.unescaped
  | _, _, _, _, .terminal _ body, _ => by
    have h : Atom.UnfoldsTo rules _ _ := .terminal (String.ofList (unescape body))
    rwa [String.toList_ofList] at h
  | _, _, _, _, .pattern _ p, _ => .pattern p
  | _, _, _, _, .name _ name, _ => by
    have h : Atom.UnfoldsTo rules _ _ := .reference (String.ofList name)
    rwa [String.toList_ofList] at h
  | _, _, _, _, .bracketed h, hfind =>
    .lifted (hfind _ List.mem_cons_self)
      (h.allUnfoldTo fun r hr => hfind r (List.mem_cons_of_mem _ hr))

theorem Primary.AllLiftTo.unfoldsTo : ∀ {parent ps atoms made},
    Primary.AllLiftTo owner parent ps atoms made →
    (∀ r ∈ made, rules.find? (·.name = r.name) = some r) →
    Alternative.UnfoldsTo rules atoms (Primary.allUnescaped ps)
  | _, _, _, _, .nil _, _ => .nil
  | _, _, _, _, .cons hp hrest, hfind =>
    .cons (hp.unfoldsTo fun r hr => hfind r (List.mem_append_left _ hr))
      (hrest.unfoldsTo fun r hr => hfind r (List.mem_append_right _ hr))

/-- Lifted definitions unfold to the definitions, wherever the rules lifted out of them are found
under their names. -/
theorem Definitions.LiftTo.allUnfoldTo : ∀ {parent d alts made},
    Definitions.LiftTo owner parent d alts made →
    (∀ r ∈ made, rules.find? (·.name = r.name) = some r) →
    Alternative.AllUnfoldTo rules alts (Definitions.unescaped d)
  | _, _, _, _, .nil _, _ => .nil
  | _, _, _, _, .cons halt hrest, hfind =>
    .cons (halt.unfoldsTo fun r hr => hfind r (List.mem_append_left _ hr))
      (hrest.allUnfoldTo fun r hr => hfind r (List.mem_append_right _ hr))

end

end Unfolding

/-! ### Adding a statement -/

namespace Build

/-- **Which statements can be added, and what their rules say.**  Adding a statement to a new
builder succeeds if and only if the text without blanks is a statement.  Then it is that in one way
only, and the rules made of it unfold to the definitions written in it and to nothing else. -/
theorem statement_spec (raw : List Char) (declared : List String) :
    ((∃ name b, (Build.statement raw).run (Builder.empty declared) = (.ok name, b)) ↔
      ∃ name d, IsStatement name d (dropBlanks raw)) ∧
    (∀ name b, (Build.statement raw).run (Builder.empty declared) = (.ok name, b) →
      ∃ d rules r, IsStatement name d (dropBlanks raw) ∧
        (∀ name' d', IsStatement name' d' (dropBlanks raw) → name' = name ∧ d' = d) ∧
        b.rules = .ok rules ∧ rules.find? (·.name = name) = some r ∧
        ∀ d', Alternative.AllUnfoldTo rules r.alts d' ↔ d' = Definitions.unescaped d) := by
  refine ⟨⟨?_, ?_⟩, ?_⟩
  · -- what a run has added was readable, so it is written as a statement
    rintro ⟨name, b, hrun⟩
    obtain ⟨s, hread, hs, -⟩ := readable_of_run_statement hrun
    exact ⟨s.name, s.definitions, isStatement_of_read hread hs⟩
  · -- a statement that is written down has a name that is new in an empty builder
    rintro ⟨name, d, h⟩
    obtain ⟨rest, -, -, hd⟩ := id h
    obtain ⟨name, rules, b, hrun, -⟩ := run_statement (b := Builder.empty declared) h.read_eq
      hd.readable List.not_mem_nil List.nodup_nil
    exact ⟨name, b, hrun⟩
  · -- a run reads the statement and lifts its definitions
    intro name b hrun
    obtain ⟨s, hread', hs, -⟩ := readable_of_run_statement hrun
    obtain ⟨s, rules, hread, rfl, hmakes, hext, -⟩ :=
      run_statement_eq_ok (b := Builder.empty declared) List.nodup_nil hrun
    obtain rfl := Except.ok.inj (hread'.symm.trans hread)
    obtain ⟨alts, below, hlift, rfl⟩ := hmakes
    have hnodup : ((s.rule alts :: below).map (·.name)).Nodup := by
      have horder := hext.nodup
      rw [hext.order_eq] at horder
      exact horder
    have hfind := fun r => @Rule.find?_eq_some_of_nodup _ _ hnodup r
    -- every bracket's rule is found under its name, since all names differ
    have hunfold := hlift.allUnfoldTo fun r hr => hfind r (List.mem_cons_of_mem _ hr)
    refine ⟨s.definitions, _, s.rule alts, isStatement_of_read hread hs, ?_,
      Builder.rules_eq_ok hext.slots_eq, hfind _ List.mem_cons_self, fun d' => ?_⟩
    · -- reading gives one statement only
      intro name' d' h'
      have heq := Except.ok.inj (hread.symm.trans h'.read_eq)
      exact ⟨congrArg Statement.name heq.symm, congrArg Statement.definitions heq.symm⟩
    · -- and so does unfolding
      constructor
      · exact fun h => h.unique hunfold
      · rintro rfl
        exact hunfold

end Build

end AnyEngine

namespace Build

attribute [local instance] Pattern.Engine.verbatim

theorem statement_spec_bracketed :
    ∃ name d, IsStatement name d (dropBlanks ['A', ' ', '=', '[', 'B', ',', '"', '|', '"', ']']) :=
  (statement_spec _ []).1.mp ⟨"A", ⟨[],
    [("A", some ⟨"A", [[.lifted .optional "ASubDef1"]], "A=[B,\"|\"]", none, none⟩),
      ("ASubDef1", some ⟨"ASubDef1", [[.reference "B", .terminal "|"]], "ASubDef1=B,\"|\"",
        some "A", some "optional"⟩)], [("A", 1)]⟩, by cbv⟩

end Build

end Ebnf
