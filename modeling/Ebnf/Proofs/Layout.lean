import Ebnf.Proofs.Grammar.References
import Ebnf.Proofs.Source.Layout

/-!
# Layout does not matter

Of a statement only what is left without its blanks is ever read.  So the grammar of a text, and
what keeps the text from having one, are the same when layout is inserted outside literals and
comments, be it within a name or between the mark of a pattern and its quote.

## Main definitions

* `BuildFault.kind?` — the kind of a fault, if it is one of the grammar.

## Main results

* `Grammar.ofStatements_dropBlanks` — statements may as well come without blanks.
* `Grammar.compile_insert_layout` — **layout does not matter.**
-/

namespace Ebnf

open Source (dropBlanks IsLayout Strips)

theorem declaredName?_dropBlanks (raw : List Char) :
    declaredName? (dropBlanks raw) = declaredName? raw := by
  rw [declaredName?, declaredName?, Source.dropBlanks_dropBlanks]

section AnyEngine

variable [Pattern.Engine]

/-! ### Statements -/

theorem Statement.read_dropBlanks (raw : List Char) :
    Statement.read (dropBlanks raw) = Statement.read raw := by
  rw [Statement.read, Statement.read, Source.dropBlanks_dropBlanks]

theorem Build.statement_dropBlanks (raw : List Char) :
    Build.statement (dropBlanks raw) = Build.statement raw := by
  rw [Build.statement, Build.statement, Statement.read_dropBlanks]

namespace Grammar

/-- Statements may as well come without blanks: all that is made of them is made of their texts
without layout. -/
theorem ofStatements_dropBlanks (raws : List (List Char)) :
    ofStatements (raws.map dropBlanks) = ofStatements raws := by
  have hnames : declaredNames (raws.map dropBlanks) = declaredNames raws := by
    rw [declaredNames, List.filterMap_map]
    exact List.filterMap_congr fun raw _ => declaredName?_dropBlanks raw
  have hsteps : ((raws.map dropBlanks).forM fun raw => discard (Build.statement raw))
      = raws.forM fun raw => discard (Build.statement raw) := by
    clear hnames
    induction raws with
    | nil => rfl
    | cons raw raws ih =>
      rw [List.map_cons, List.forM, List.forM, Build.statement_dropBlanks, ih]
  rw [ofStatements, ofStatements, Build.statements, Build.statements, hnames, hsteps]

end Grammar

/-! ### Texts -/

/-- The kind of a fault of the grammar.  Faults of its construction have none. -/
def BuildFault.kind? : BuildFault → Option FaultKind
  | .grammar fault => some fault.cause.kind
  | .notReserved _ | .notDefined _ | .noHome _ | .enumeration _ => none

namespace Grammar

variable {before rest out layout : List Char}

theorem compile_of_readStatements {text : List Char} {raws : List (List Char)}
    (h : Source.readStatements text = .ok raws) : compile text = ofStatements raws := by
  rw [compile, h]

theorem compile_of_textFault {text : List Char} {fault : Source.TextFault}
    (h : Source.readStatements text = .error fault) :
    compile text = .error (.grammar (.ofText fault)) := by
  rw [compile, h]

/-- **Layout does not matter.**  If layout is inserted into a text outside literals and comments,
both texts compile to the same grammar or both have a fault of the same kind. -/
theorem compile_insert_layout (h : Strips .plain before rest out .plain)
    (hlayout : IsLayout layout) :
    (∃ g, compile (before ++ rest) = .ok g ∧ compile (before ++ (layout ++ rest)) = .ok g) ∨
    ∃ fault fault', compile (before ++ rest) = .error fault ∧
      compile (before ++ (layout ++ rest)) = .error fault' ∧ fault.kind? = fault'.kind? := by
  rcases Source.readStatements_insert h hlayout with ⟨raws, raws', hraws, hraws', heq⟩ |
    ⟨place, place', hplace, hplace'⟩ | ⟨place, tail, place', tail', hplace, hplace'⟩
  · have hsame : ofStatements raws = ofStatements raws' := by
      rw [← ofStatements_dropBlanks, heq, ofStatements_dropBlanks]
    rw [compile_of_readStatements hraws, compile_of_readStatements hraws', hsame]
    rcases ofStatements raws' with fault | g
    · exact Or.inr ⟨fault, fault, rfl, rfl, rfl⟩
    · exact Or.inl ⟨g, rfl, rfl⟩
  · exact Or.inr ⟨_, _, compile_of_textFault hplace, compile_of_textFault hplace', rfl⟩
  · exact Or.inr ⟨_, _, compile_of_textFault hplace, compile_of_textFault hplace', rfl⟩

end Grammar

end AnyEngine

namespace Grammar

attribute [local instance] Pattern.Engine.verbatim

/-- A comment in the midst of a name. -/
theorem compile_insert_layout_strayText :
    compile (strayText.take 15 ++
      (['(', '*', ';', '"', '\n', '*', '*', ')'] ++ strayText.drop 15)) = .ok strayGrammar := by
  have hstrips : Strips .plain (strayText.take 15) (strayText.drop 15) _ .plain :=
    Strips.of_notMem (by decide) .plain _
  have hlayout : IsLayout ['(', '*', ';', '"', '\n', '*', '*', ')'] :=
    @IsLayout.comment [';', '"', '\n', '*'] (by decide)
  have hcompile : compile (strayText.take 15 ++ strayText.drop 15) = .ok strayGrammar :=
    compile_strayText
  rcases compile_insert_layout hstrips hlayout with ⟨g, hg, hg'⟩ | ⟨fault, -, hfault, -, -⟩
  · rw [hcompile] at hg
    cases hg
    exact hg'
  · rw [hcompile] at hfault
    cases hfault

end Grammar

end Ebnf
