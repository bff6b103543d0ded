import Ebnf.Proofs.Description.Printing
import Ebnf.Proofs.NodeTypes

/-!
# Grammars can be printed

The written form of a rule can be read back if the names in it are plain and its patterns come from
literals.  That is so in the grammar of any text: the names of statements have been read without
their blanks, lifted names are longer names of the same kind, and patterns were read from literals.
What is left is a name that begins with a star, which would make a comment of a parenthesis before
it.

## Main definitions

* `Atom.FromLiteral`, `Rule.FromLiterals` — patterns come from literals.

## Main results

* `Grammar.ConsistsOf.forall_names` — an induction over the names of a grammar.
* `Grammar.isPlainName_of_compile` — its names are plain.
* `Definitions.LiftTo.fromLiteral` — lifting makes no patterns but those that are written.
* `Grammar.printable_of_compile` — **the rules of a grammar can be printed.**
-/

namespace Ebnf

open Text (isBlank)
open Source (dropBlanks dropBlanksFrom unescapeQuotes LiteralBody Mode)
open Builder (liftedName)

/-! ### Names -/

namespace Source

/-- Where nothing is dropped, there is no blank before the first quote. -/
theorem notBlank_of_dropBlanks_eq {rest : List Char} : ∀ {name : List Char}, '"' ∉ name →
    dropBlanks (name ++ rest) = name ++ rest → ∀ c ∈ name, isBlank c = false := by
  intro name
  induction name with
  | nil => simp
  | cons c name ih =>
    intro hquote h
    rw [List.mem_cons, not_or] at hquote
    rw [List.cons_append, dropBlanks, dropBlanksFrom_cons] at h
    split at h
    · have hle := length_dropBlanksFrom_le (name ++ rest) .plain
      rw [h, List.length_cons] at hle
      omega
    · next hkeep =>
      have hblank : isBlank c = false := by simpa using hkeep
      obtain ⟨-, htail⟩ := List.cons.inj h
      rw [Mode.next_plain (Ne.symm hquote.1)] at htail
      exact List.forall_mem_cons.mpr ⟨hblank, ih hquote.2 htail⟩

end Source

theorem toList_liftedName (parent : String) (k : Nat) :
    (liftedName parent k).toList = parent.toList ++ ("SubDef".toList ++ Nat.toDigits 10 k) := by
  rw [liftedName, String.toList_append, String.toList_append, List.append_assoc,
    Nat.toString_eq_repr, Nat.toList_repr]

/-- A digit is neither reserved nor blank. -/
theorem plain_of_isDigit {c : Char} (h : c.isDigit = true) :
    c ∉ reservedCharacters ∧ isBlank c = false := by
  have hreserved : reservedCharacters.all (fun c => !c.isDigit) = true := by decide
  constructor
  · intro hmem
    have := List.all_eq_true.mp hreserved c hmem
    simp [h] at this
  · by_contra hblank
    rw [Bool.not_eq_false, isBlank] at hblank
    obtain ⟨range, hrange, hlow, hhigh⟩ := Text.exists_range_of_inRanges hblank
    have hdigit : 48 ≤ c.toNat ∧ c.toNat ≤ 57 := by
      simpa [Char.isDigit, UInt32.le_iff_toNat_le] using h
    have hfar : Text.blankRanges.all (fun r => r.2 < 48 || 57 < r.1) = true := by decide
    have := List.all_eq_true.mp hfar range hrange
    simp only [Bool.or_eq_true, decide_eq_true_eq] at this
    omega

/-- Lifted names are plain if those they are made of are. -/
theorem isPlainName_liftedName {parent : String} (h : IsPlainName parent.toList) (k : Nat) :
    IsPlainName (liftedName parent k).toList := by
  have hword : "SubDef".toList.all (fun c => !reservedCharacters.contains c && !isBlank c)
      = true := by
    decide
  have hplain : ∀ c ∈ (liftedName parent k).toList, c ∉ reservedCharacters ∧ isBlank c = false := by
    rw [toList_liftedName]
    intro c hc
    rcases List.mem_append.mp hc with hc | hc
    · exact ⟨h.isName.2 c hc, h.notBlank c hc⟩
    · rcases List.mem_append.mp hc with hc | hc
      · simpa using List.all_eq_true.mp hword c hc
      · exact plain_of_isDigit (Nat.isDigit_of_mem_toDigits (by decide) (by decide) hc)
  refine ⟨⟨?_, fun c hc => (hplain c hc).1⟩, fun c hc => (hplain c hc).2⟩
  rw [toList_liftedName]
  exact List.append_ne_nil_of_left_ne_nil h.isName.1 _

/-- A lifted name begins as the one that it is made of. -/
theorem head?_liftedName {parent : String} (h : parent.toList ≠ []) (k : Nat) :
    (liftedName parent k).toList.head? = parent.toList.head? := by
  rw [toList_liftedName, List.head?_append_of_ne_nil _ h]

variable [Pattern.Engine]

/-- A name that is declared has no blanks: those of its statement have been dropped. -/
theorem IsStatement.isPlainName {raw : List Char} {name : String} {d : Definitions}
    (h : IsStatement name d (dropBlanks raw)) : IsPlainName name.toList := by
  obtain ⟨rest, htext, hname, -⟩ := h
  refine ⟨hname, ?_⟩
  have hquote : '"' ∉ name.toList := fun hmem => hname.ne_of_mem hmem (by decide) rfl
  have hdrop := Source.dropBlanks_dropBlanks raw
  rw [htext] at hdrop
  exact Source.notBlank_of_dropBlanks_eq hquote hdrop

/-- What holds of the names of the statements and passes on to lifted names holds of all names. -/
theorem Grammar.ConsistsOf.forall_names {g : Grammar} {statements : List Statement}
    (h : g.ConsistsOf statements) {P : String → Prop} (hstatements : ∀ s ∈ statements, P s.name)
    (hlifted : ∀ parent k, P parent → P (liftedName parent k)) : ∀ name ∈ g.names, P name := by
  intro name hname
  -- induction on the length of the name, as a lifted name is longer than its parent's
  induction hn : name.length using Nat.strongRecOn generalizing name with
  | ind n ih =>
    rcases h.mem_declared_or_lifted hname with hdeclared | ⟨r, -, rfl, owner, hfrom⟩
    · obtain ⟨s, hs, rfl⟩ := List.mem_map.mp hdeclared
      exact hstatements s hs
    · obtain ⟨parent, hparent, k, hk⟩ := hfrom.name_eq
      rw [hk] at hn ⊢
      refine hlifted parent k (ih parent.length ?_ parent hparent rfl)
      rw [← hn]
      exact Builder.length_lt_liftedName parent k

/-! ### Patterns -/

/-- If the atom is a pattern, it comes from a literal. -/
def Atom.FromLiteral (atom : Atom) : Prop :=
  ∀ p, atom = .pattern p → ∃ body, LiteralBody body ∧
    Pattern.ofSource (String.ofList (unescapeQuotes body)) = .ok p

/-- All patterns of the rule come from literals. -/
def Rule.FromLiterals (r : Rule) : Prop := ∀ alt ∈ r.alts, ∀ atom ∈ alt, atom.FromLiteral

section

variable {owner : String}

mutual

/-- Lifting a primary makes a pattern only of a pattern, which was read from a literal. -/
theorem Primary.LiftsTo.fromLiteral : ∀ {parent p atom rules text},
    Primary.LiftsTo owner parent p atom rules → p.WrittenAs text →
    atom.FromLiteral ∧ ∀ r ∈ rules, r.FromLiterals
  | _, _, _, _, _, .terminal _ _, _ => ⟨nofun, by simp⟩
  | _, _, _, _, _, .pattern _ p, .pattern hbody hp => by
    refine ⟨fun q hq => ?_, by simp⟩
    obtain rfl : p = q := Atom.pattern.inj hq
    exact ⟨_, hbody, hp⟩
  | _, _, _, _, _, .name _ _, _ => ⟨nofun, by simp⟩
  | _, _, _, _, _, .bracketed h, .bracketed _ hinner =>
    ⟨nofun, List.forall_mem_cons.mpr (h.fromLiteral hinner)⟩

theorem Primary.AllLiftTo.fromLiteral : ∀ {parent ps atoms rules text},
    Primary.AllLiftTo owner parent ps atoms rules → Primary.AllWrittenAs ps text →
    (∀ atom ∈ atoms, atom.FromLiteral) ∧ ∀ r ∈ rules, r.FromLiterals
  | _, _, _, _, _, .cons hp hrest, .single hwritten => by
    obtain ⟨hatom, hrules⟩ := hp.fromLiteral hwritten
    cases hrest
    rw [List.append_nil]
    exact ⟨by simpa using hatom, hrules⟩
  | _, _, _, _, _, .cons hp hrest, .cons hwritten hothers => by
    obtain ⟨hatom, hrules⟩ := hp.fromLiteral hwritten
    obtain ⟨hatoms, hbelow⟩ := hrest.fromLiteral hothers
    exact ⟨List.forall_mem_cons.mpr ⟨hatom, hatoms⟩, List.forall_mem_append.mpr ⟨hrules, hbelow⟩⟩

/-- Lifting makes patterns of those that are written only. -/
theorem Definitions.LiftTo.fromLiteral : ∀ {parent d alts rules text},
    Definitions.LiftTo owner parent d alts rules → Definitions.WrittenAs d text →
    (∀ alt ∈ alts, ∀ atom ∈ alt, atom.FromLiteral) ∧ ∀ r ∈ rules, r.FromLiterals
  | _, _, _, _, _, .cons halt hrest, .single hwritten => by
    obtain ⟨hatoms, hrules⟩ := halt.fromLiteral hwritten
    cases hrest
    rw [List.append_nil]
    exact ⟨by simpa using hatoms, hrules⟩
  | _, _, _, _, _, .cons halt hrest, .cons hwritten hothers => by
    obtain ⟨hatoms, hrules⟩ := halt.fromLiteral hwritten
    obtain ⟨halts, hbelow⟩ := hrest.fromLiteral hothers
    exact ⟨List.forall_mem_cons.mpr ⟨hatoms, halts⟩, List.forall_mem_append.mpr ⟨hrules, hbelow⟩⟩

end

end

theorem Statement.Makes.fromLiterals {s : Statement} {rules : List Rule} (h : s.Makes rules)
    {text : List Char} (hwritten : Definitions.WrittenAs s.definitions text) :
    ∀ r ∈ rules, r.FromLiterals := by
  obtain ⟨alts, below, hlift, rfl⟩ := h
  exact List.forall_mem_cons.mpr (hlift.fromLiteral hwritten)

/-! ### Grammars -/

/-- The remark on a lifted rule does not close a comment if the name of its owner does not. -/
theorem Rule.LiftedFrom.remark {owner : String} {names : List String} {r : Rule}
    (h : r.LiftedFrom owner names) (howner : IsPlainName owner.toList) :
    ∀ origin, r.origin? = some origin → ')' ∉ origin.toList := by
  obtain ⟨bracket, hkind⟩ := h.kind_eq
  intro origin horigin
  rw [Rule.origin?, h.owner_eq, hkind] at horigin
  obtain rfl : bracket.word ++ " of " ++ owner = origin := Option.some.inj horigin
  have hword : ')' ∉ bracket.word.toList := by cases bracket <;> decide
  have hof : ')' ∉ " of ".toList := by decide
  have hname : ')' ∉ owner.toList := fun hmem => howner.isName.ne_of_mem hmem (by decide) rfl
  rw [String.toList_append, String.toList_append, List.mem_append, List.mem_append]
  exact not_or.mpr ⟨not_or.mpr ⟨hword, hof⟩, hname⟩

namespace Grammar

variable {g : Grammar} {text : List Char}

/-- What holds of the names that statements define and passes on to lifted names holds of all
names. -/
theorem forall_names_of_compile (h : compile text = .ok g) {P : String → Prop}
    (hstatement : ∀ name d raw, IsStatement name d (dropBlanks raw) → name ∈ g.topLevel → P name)
    (hlifted : ∀ parent k, P parent → P (liftedName parent k)) : ∀ name ∈ g.names, P name := by
  obtain ⟨raws, hcut, hstatements, -, hrules, -, -⟩ := names_of_compile h
  have htop := topLevel_of_compile hrules hstatements
  rw [compile_of_cutInto hcut] at h
  obtain ⟨statements, hreads, hg⟩ := consistsOf_of_ofStatements h
  refine hg.forall_names (fun s hs => ?_) hlifted
  obtain ⟨raw, hraw, hread⟩ := exists_of_forall₂_right hreads hs
  obtain ⟨name, d, hraw'⟩ := hstatements raw hraw
  rw [hraw'.read_eq] at hread
  cases hread
  refine hstatement name d raw hraw' ?_
  rw [htop]
  exact List.mem_filterMap.mpr ⟨raw, hraw, declaredName?_of_isStatement hraw'⟩

/-- All names of a grammar are plain: those of statements are, and lifted ones add letters and
digits to them. -/
theorem isPlainName_of_compile (h : compile text = .ok g) :
    ∀ name ∈ g.names, IsPlainName name.toList :=
  forall_names_of_compile h (fun _ _ _ hs _ => hs.isPlainName) fun _ k hparent =>
    isPlainName_liftedName hparent k

/-- No name begins with a star if none of a statement does. -/
theorem head?_ne_of_compile (h : compile text = .ok g)
    (hstar : ∀ name ∈ g.topLevel, name.toList.head? ≠ some '*') :
    ∀ name ∈ g.names, name.toList.head? ≠ some '*' := by
  have hnames : ∀ name ∈ g.names, IsPlainName name.toList ∧ name.toList.head? ≠ some '*' := by
    refine forall_names_of_compile h (fun name _ _ hs htop => ?_) fun parent k hparent => ?_
    · exact ⟨hs.isPlainName, hstar name htop⟩
    · obtain ⟨hplain, hhead⟩ := hparent
      rw [head?_liftedName hplain.isName.1]
      exact ⟨isPlainName_liftedName hplain k, hhead⟩
  exact fun name hname => (hnames name hname).2

/-- **The rules of a grammar can be printed**, if no name of a statement begins with a star. -/
theorem printable_of_compile (h : compile text = .ok g)
    (hstar : ∀ name ∈ g.topLevel, name.toList.head? ≠ some '*') :
    ∀ r ∈ g.rules, r.Printable := by
  have hnames := isPlainName_of_compile h
  have hresolved := (consistsOf_of_compile h).isResolved
  obtain ⟨raws, hcut, hstatements, -, hrules, -, -⟩ := names_of_compile h
  obtain ⟨_, _, -, -, -, -, -, hfilled⟩ := exists_trees h
  intro r hr
  have hname := hnames r.name (List.mem_map_of_mem hr)
  -- the rule stands in the block of a statement
  obtain ⟨raw, hraw, hblock⟩ := List.mem_flatMap.mp (hrules ▸ hr)
  obtain ⟨name, d, hstatement⟩ := hstatements raw hraw
  obtain ⟨hmakes, -⟩ := hstatement.makes_blockOf (declaredNames raws)
  obtain ⟨_, -, -, hwritten⟩ := id hstatement
  have hliterals := hmakes.fromLiterals hwritten r hblock
  refine ⟨hname, hfilled r hr, fun alt halt atom hatom => ?_, ?_⟩
  · -- patterns come from a literal of the statement, and names from rules of the grammar
    cases atom with
    | terminal => trivial
    | pattern p => exact hliterals alt halt _ hatom p rfl
    | reference name => exact hnames name (hresolved.mem_names hr halt hatom rfl)
    | lifted bracket name =>
      have hmem := hresolved.mem_names hr halt hatom rfl
      exact ⟨hnames name hmem, head?_ne_of_compile h hstar name hmem⟩
  · -- the rule of the statement bears no remark, and that of a bracket names its owner
    obtain ⟨alts, below, hlift, heq⟩ := hmakes
    rw [heq] at hblock
    rcases List.mem_cons.mp hblock with rfl | hbelow
    · exact nofun
    · exact (hlift.liftedFrom r hbelow).remark hstatement.isPlainName

end Grammar

end Ebnf
