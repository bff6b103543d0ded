import Ebnf.Proofs.Grammar.Forest
import Ebnf.Proofs.Source.Pieces

/-!
# The written form of rules

A rule is written as a statement that defines it: what its atoms are written as are primaries again,
and a bracket comes back as a bracket around the name of its rule.  Written rules are put together
from names, literals, brackets, blanks and comments, so their lines are a text whose statements are
the written forms, whatever the terminals, patterns and names in them are.

## Main definitions

* `Atom.written`, `Rule.written` — what is read back from the written form.
* `Rule.printed` — the statement that the written form of a rule is.
* `Atom.Printable`, `Rule.Printable` — the written form can be read back.

## Main results

* `Atom.eq_or_lifted_of_liftsTo_written` — what is read back for an atom.
* `Rule.Printable.isStatement` — the written form is a statement.
* `Rule.Printable.leaves_describeRule` — what is left of a line of a description.
* `Grammar.exists_cutInto_describe` — **the statements of a description.**
-/

namespace Ebnf

open Source (escape escapeQuotes unescapeQuotes dropBlanks Leaves LiteralBody CutInto)

/-! ### Literals -/

namespace Source

/-- An escaped text can stand in a literal. -/
theorem literalBody_escape (text : List Char) : LiteralBody (escape text) := by
  induction text with
  | nil => exact .nil
  | cons c text ih =>
    by_cases h : c = '"' ∨ c = '\\'
    · have hescape : escape (c :: text) = '\\' :: c :: escape text := by simp [escape, h]
      rw [hescape]
      exact .escaped c ih
    · have hescape : escape (c :: text) = c :: escape text := by simp [escape, h]
      rw [hescape]
      exact .char (fun hc => h (.inl hc)) (fun hc => h (.inr hc)) ih

theorem escapeQuotes_quote (text : List Char) :
    escapeQuotes ('"' :: text) = '\\' :: '"' :: escapeQuotes text := by
  simp [escapeQuotes]

theorem escapeQuotes_of_ne {c : Char} (hc : c ≠ '"') (text : List Char) :
    escapeQuotes (c :: text) = c :: escapeQuotes text := by
  simp [escapeQuotes, hc]

theorem unescapeQuotes_quote (text : List Char) :
    unescapeQuotes ('\\' :: '"' :: text) = '"' :: unescapeQuotes text := by
  rw [unescapeQuotes]

/-- Only a backslash before a quote is dropped. -/
theorem unescapeQuotes_cons {c : Char} {text : List Char}
    (h : c = '\\' → text.head? ≠ some '"') :
    unescapeQuotes (c :: text) = c :: unescapeQuotes text := by
  rw [unescapeQuotes]
  rintro rest rfl rfl
  exact h rfl rfl

theorem LiteralBody.head?_ne {body : List Char} (h : LiteralBody body) : body.head? ≠ some '"' := by
  cases h with
  | nil => simp
  | char hquote => simpa using hquote
  | escaped c => simp

/-- The source of a pattern is written as it stood in its literal. -/
theorem LiteralBody.escapeQuotes_unescapeQuotes {body : List Char} (h : LiteralBody body) :
    escapeQuotes (unescapeQuotes body) = body := by
  induction h with
  | nil => rfl
  | @char c body hquote hbackslash _ ih =>
    rw [unescapeQuotes_cons (fun hc => absurd hc hbackslash), escapeQuotes_of_ne hquote, ih]
  | @escaped c body hbody ih =>
    by_cases hc : c = '"'
    · subst hc
      rw [unescapeQuotes_quote, escapeQuotes_quote, ih]
    · have hnext : unescapeQuotes (c :: body) = c :: unescapeQuotes body :=
        unescapeQuotes_cons fun _ => hbody.head?_ne
      rw [unescapeQuotes_cons (fun _ => by simpa using hc), escapeQuotes_of_ne (by decide), hnext,
        escapeQuotes_of_ne hc, ih]

end Source

variable [Pattern.Engine]

/-! ### Atoms -/

/-- The primary as which an atom is written. -/
def Atom.written : Atom → Primary
  | .terminal text => .terminal (escape text.toList)
  | .pattern p => .pattern p
  | .reference name => .name name.toList
  | .lifted bracket rule => .bracketed bracket [[.name rule.toList]]

/-- The written form of the atom can be read back: names are plain, no bracket opens a comment, and
a pattern comes from a literal. -/
def Atom.Printable : Atom → Prop
  | .terminal _ => True
  | .pattern p => ∃ body, LiteralBody body ∧
    Pattern.ofSource (String.ofList (unescapeQuotes body)) = .ok p
  | .reference name => IsPlainName name.toList
  | .lifted _ rule => IsPlainName rule.toList ∧ rule.toList.head? ≠ some '*'

theorem chars_bracketed_name (bracket : Bracket) (name : List Char) :
    (Primary.bracketed bracket [[.name name]]).chars
      = bracket.opener :: (name ++ [bracket.closer]) := by
  rw [Primary.chars, Definitions.chars, Primary.listChars, Primary.chars]

omit [Pattern.Engine] in
/-- The characters of a bracket stay, if what follows an opening parenthesis is no star. -/
theorem leaves_bracketed (bracket : Bracket) {piece : List Char} (h : Leaves piece piece)
    (hstar : piece.head? ≠ some '*') :
    Leaves (bracket.opener :: (piece ++ [bracket.closer]))
      (bracket.opener :: (piece ++ [bracket.closer])) := by
  have hcloser : Leaves [bracket.closer] [bracket.closer] := by
    cases bracket <;> exact .char (by decide) (by decide) rfl
  have hinner := h.append hcloser
  cases bracket with
  | optional => exact .cons (.char (by decide) (by decide) rfl) hinner
  | repetition => exact .cons (.char (by decide) (by decide) rfl) hinner
  | group =>
    cases piece with
    | nil => exact .opener (by decide) hinner
    | cons c piece => exact .opener (fun hc => hstar (congrArg some hc)) hinner

/-- A pattern is written as the literal that it comes from. -/
theorem chars_pattern {body : List Char} {p : Pattern} (hbody : LiteralBody body)
    (hp : Pattern.ofSource (String.ofList (unescapeQuotes body)) = .ok p) :
    (Primary.pattern p).chars = '!' :: '"' :: (body ++ ['"']) := by
  have hsource : p.source.toList = unescapeQuotes body := by
    rw [Pattern.source_of_ofSource hp, String.toList_ofList]
  rw [Primary.chars, hsource, hbody.escapeQuotes_unescapeQuotes]

/-- The primary is what the written form of the atom holds. -/
theorem Atom.toList_render (atom : Atom) : atom.render.toList = atom.written.chars := by
  cases atom with
  | terminal text => rw [render, String.toList_ofList, written, Primary.chars]
  | pattern p => rw [render, String.toList_ofList, written, Primary.chars]
  | reference name => rw [render, written, Primary.chars]
  | lifted bracket rule =>
    rw [render, String.toList_append, String.toList_append, String.toList_singleton,
      String.toList_singleton, List.append_assoc, List.singleton_append, written,
      chars_bracketed_name]

namespace Atom.Printable

variable {atom : Atom}

/-- What is written can be read back. -/
theorem writtenAs (h : atom.Printable) : atom.written.WrittenAs atom.written.chars := by
  cases atom with
  | terminal text => exact .terminal (Source.literalBody_escape _)
  | pattern p =>
    obtain ⟨body, hbody, hp⟩ := h
    rw [written, chars_pattern hbody hp]
    exact .pattern hbody hp
  | reference name => exact .name h.isName
  | lifted bracket rule =>
    rw [written, chars_bracketed_name]
    exact .bracketed bracket (.single (.single (.name h.1.isName)))

/-- All of the written form stays. -/
theorem leaves (h : atom.Printable) : Leaves atom.render.toList atom.written.chars := by
  rw [toList_render]
  cases atom with
  | terminal text => exact (Source.literalBody_escape _).leaves
  | pattern p =>
    obtain ⟨body, hbody, hp⟩ := h
    rw [written, chars_pattern hbody hp]
    exact .cons (.char (by decide) (by decide) rfl) hbody.leaves
  | reference name => exact h.leaves
  | lifted bracket rule =>
    rw [written, chars_bracketed_name]
    exact leaves_bracketed bracket h.1.leaves h.2

end Atom.Printable

/-- What is read back for an atom: the atom itself or, for a bracket, a bracket around a reference
to its rule. -/
theorem Atom.eq_or_lifted_of_liftsTo_written {owner parent : String} {atom atom' : Atom}
    {rules : List Rule} (h : Primary.LiftsTo owner parent atom.written atom' rules) :
    (atom.bracket? = none ∧ atom' = atom ∧ rules = []) ∨
      ∃ bracket name lifted, atom = .lifted bracket name ∧ atom' = .lifted bracket lifted ∧
        rules = [Rule.ofBracket owner lifted bracket [[.name name.toList]]
          [[.reference name]]] := by
  -- what is written for an atom is read as the same atom, which has one way to be lifted
  cases atom with
  | terminal text =>
    cases h
    rw [Source.unescape_escape, String.ofList_toList]
    exact Or.inl ⟨rfl, rfl, rfl⟩
  | pattern p =>
    cases h
    exact Or.inl ⟨rfl, rfl, rfl⟩
  | reference name =>
    cases h
    rw [String.ofList_toList]
    exact Or.inl ⟨rfl, rfl, rfl⟩
  | lifted bracket name =>
    refine Or.inr ⟨bracket, name, ?_⟩
    cases h with
    | bracketed hinner =>
      -- there is one alternative with one reference
      cases hinner with
      | cons halt hrest =>
        cases hrest
        cases halt with
        | cons hatom hatoms =>
          cases hatoms
          cases hatom
          rw [String.ofList_toList]
          exact ⟨_, rfl, rfl, rfl⟩

/-! ### Rules -/

/-- The definitions as which the alternatives of a rule are written. -/
def Rule.written (r : Rule) : Definitions := r.alts.map (·.map Atom.written)

/-- The statement as which a rule is written. -/
def Rule.printed (r : Rule) : Statement :=
  ⟨r.name, r.written, String.ofList (r.name.toList ++ '=' :: Definitions.chars r.written)⟩

/-- The written form of the rule can be read back, and so can the remark on where it comes from. -/
structure Rule.Printable (r : Rule) : Prop where
  name : IsPlainName r.name.toList
  filled : r.Filled
  atoms : ∀ alt ∈ r.alts, ∀ atom ∈ alt, atom.Printable
  remark : ∀ origin, r.origin? = some origin → ')' ∉ origin.toList

theorem Primary.listChars_eq : ∀ (ps : List Primary),
    Primary.listChars ps = [','].intercalate (ps.map Primary.chars)
  | [] => rfl
  | [p] => by
    rw [Primary.listChars, List.map_singleton, List.intercalate_singleton]
  | p :: q :: rest => by
    rw [Primary.listChars, Primary.listChars_eq (q :: rest), List.map_cons, List.map_cons,
      List.map_cons, List.intercalate_cons_cons, List.append_assoc]
    · rfl
    · exact List.cons_ne_nil _ _

theorem Definitions.chars_eq : ∀ (d : Definitions),
    Definitions.chars d = ['|'].intercalate (d.map Primary.listChars)
  | [] => rfl
  | [alt] => by
    rw [Definitions.chars, List.map_singleton, List.intercalate_singleton]
  | alt :: alt' :: rest => by
    rw [Definitions.chars, Definitions.chars_eq (alt' :: rest), List.map_cons, List.map_cons,
      List.map_cons, List.intercalate_cons_cons, List.append_assoc]
    · rfl
    · exact List.cons_ne_nil _ _

/-- Alternatives without gaps are read back from what they are written as. -/
theorem allWrittenAs_chars : ∀ {ps : List Primary}, ps ≠ [] → (∀ p ∈ ps, p.WrittenAs p.chars) →
    Primary.AllWrittenAs ps (Primary.listChars ps)
  | [p], _, h => by
    rw [Primary.listChars]
    exact .single (h p List.mem_cons_self)
  | p :: q :: rest, _, h => by
    have hrest := allWrittenAs_chars (List.cons_ne_nil q rest)
      fun p' hp' => h p' (List.mem_cons_of_mem p hp')
    rw [Primary.listChars]
    · exact .cons (h p List.mem_cons_self) hrest
    · exact List.cons_ne_nil _ _

/-- Definitions without gaps are read back from what they are written as. -/
theorem writtenAs_chars : ∀ {d : Definitions}, d ≠ [] →
    (∀ alt ∈ d, Primary.AllWrittenAs alt (Primary.listChars alt)) →
    Definitions.WrittenAs d (Definitions.chars d)
  | [alt], _, h => by
    rw [Definitions.chars]
    exact .single (h alt List.mem_cons_self)
  | alt :: alt' :: rest, _, h => by
    have hrest := writtenAs_chars (List.cons_ne_nil alt' rest)
      fun alt'' halt => h alt'' (List.mem_cons_of_mem alt halt)
    rw [Definitions.chars]
    · exact .cons (h alt List.mem_cons_self) hrest
    · exact List.cons_ne_nil _ _

theorem Rule.text_printed (r : Rule) :
    r.printed.text.toList = r.name.toList ++ '=' :: Definitions.chars r.written :=
  String.toList_ofList

namespace Rule.Printable

variable {r : Rule}

theorem writtenAs (h : r.Printable) :
    Definitions.WrittenAs r.written (Definitions.chars r.written) := by
  obtain ⟨hne, hfilled⟩ := h.filled
  refine writtenAs_chars (by simpa [Rule.written] using hne) fun alt halt => ?_
  obtain ⟨atoms, hatoms, rfl⟩ := List.mem_map.mp halt
  refine allWrittenAs_chars (by simpa using hfilled atoms hatoms) fun p hp => ?_
  obtain ⟨atom, hatom, rfl⟩ := List.mem_map.mp hp
  exact (h.atoms atoms hatoms atom hatom).writtenAs

/-- The written form is a statement, whose definitions are those as which the alternatives are
written. -/
theorem isStatement (h : r.Printable) : IsStatement r.name r.written r.printed.text.toList :=
  ⟨Definitions.chars r.written, r.text_printed, h.name.isName, h.writtenAs⟩

theorem uncut (h : r.Printable) : Source.Uncut r.printed.text.toList := by
  have hequals : Source.Uncut ['='] := .char (by decide) (by decide)
  rw [text_printed]
  exact h.name.isName.uncut.append (hequals.append h.writtenAs.uncut)

theorem leaves_alts (h : r.Printable) :
    Leaves (" | ".intercalate (r.alts.map Alternative.render)).toList
      (Definitions.chars r.written) := by
  have hbar : Leaves " | ".toList ['|'] :=
    (Leaves.spaces 1).append ((Leaves.char (by decide) (by decide) rfl).append (Leaves.spaces 1))
  have hcomma : Leaves ", ".toList [','] :=
    (Leaves.char (by decide) (by decide) rfl).append (Leaves.spaces 1)
  rw [String.toList_intercalate, Definitions.chars_eq, written, List.map_map, List.map_map]
  refine hbar.intercalate fun atoms hatoms => ?_
  have hatoms := hcomma.intercalate fun atom hatom => (h.atoms atoms hatoms atom hatom).leaves
  simpa [Alternative.render, Primary.listChars_eq, Function.comp_def] using hatoms

/-- What is left of the written form is the statement, and the semicolon behind it. -/
theorem leaves_render (h : r.Printable) :
    Leaves r.render.toList (r.printed.text.toList ++ [';']) := by
  have hequals : Leaves " = ".toList ['='] :=
    (Leaves.spaces 1).append ((Leaves.char (by decide) (by decide) rfl).append (Leaves.spaces 1))
  have hsemicolon : Leaves ";".toList [';'] := .char (by decide) (by decide) rfl
  have hall := ((h.name.leaves.append hequals).append h.leaves_alts).append hsemicolon
  rw [render, String.toList_append, String.toList_append, String.toList_append, text_printed]
  simpa using hall

/-- A line of a description leaves the same: its indentation and its remark are layout. -/
theorem leaves_describeRule (h : r.Printable) :
    Leaves (Grammar.describeRule r).toList (r.printed.text.toList ++ [';']) := by
  rcases horigin : r.origin? with _ | origin
  · rw [Grammar.describeRule, horigin]
    exact h.leaves_render
  · have hindent : Leaves "    ".toList [] := Leaves.spaces 4
    have hgap : Leaves "  ".toList [] := Leaves.spaces 2
    have hbody : ¬['*', ')'] <:+: ' ' :: (origin.toList ++ [' ']) := by
      intro hinfix
      have hmem : ')' ∈ ' ' :: (origin.toList ++ [' ']) := hinfix.subset (by simp)
      simp [h.remark origin horigin] at hmem
    have hremark : Leaves ('(' :: '*' :: (' ' :: (origin.toList ++ [' ']) ++ ['*', ')'])) [] :=
      .layout (.comment hbody)
    have hall := ((hindent.append h.leaves_render).append hgap).append hremark
    rw [Grammar.describeRule, horigin]
    simpa using hall

end Rule.Printable

/-! ### Descriptions -/

omit [Pattern.Engine] in
theorem intercalate_nil_left {α : Type} : ∀ (l : List (List α)), [].intercalate l = l.flatten
  | [] => rfl
  | [a] => by simp
  | a :: b :: l => by
    rw [List.intercalate_cons_cons, intercalate_nil_left (b :: l), List.append_nil,
      List.flatten_cons, List.flatten_cons, List.flatten_cons]

/-- **The statements of a description** are the written forms of the rules, since remarks are
comments and the lines of rules end in semicolons. -/
theorem Grammar.exists_cutInto_describe {g : Grammar} (h : ∀ r ∈ g.rules, r.Printable) :
    ∃ raws, CutInto g.describe.toList raws ∧
      raws.map dropBlanks = g.rules.map (·.printed.text.toList) := by
  have hnewline : Leaves "\n".toList [] :=
    .layout (.blanks (List.forall_mem_singleton.mpr rfl))
  have hlines := hnewline.intercalate fun r hr => (h r hr).leaves_describeRule
  have hall : Leaves g.describe.toList
      ((g.rules.map (·.printed.text.toList)).flatMap (· ++ [';'])) := by
    rw [describe, String.toList_intercalate, List.map_map, List.flatMap_map]
    rw [intercalate_nil_left, ← List.flatMap_def] at hlines
    exact hlines
  refine hall.exists_cutInto (fun piece hpiece => ?_) fun piece hpiece => ?_
  · obtain ⟨r, hr, rfl⟩ := List.mem_map.mp hpiece
    exact (h r hr).uncut
  · obtain ⟨r, hr, rfl⟩ := List.mem_map.mp hpiece
    rw [Rule.text_printed]
    simp

end Ebnf
