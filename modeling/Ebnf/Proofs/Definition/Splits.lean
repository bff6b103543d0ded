import Ebnf.Proofs.Stages

/-!
# Splits within definitions

To read definitions a text is split at bars, each alternative at commas, and what stands in a
bracket at bars again, while the end of a bracket is found by counting brackets of any kind.  Two
readings have to agree here, the one that answers each opener by its own kind and the one that
counts.  They do: if the first split succeeds then all others do, and counting comes to the closer
that the split pairs with the opener.  So brackets and literals that do not match are reported
before any bracket of a statement gets a name.

## Main definitions

* `Source.GoesOver` — how splitting comes from the beginning of a text to its end.
* `Source.Pairs` — splitting pairs the two characters of a bracket.
* `IsTokenOf`, `ReadIn` — the tokens of definitions, and the texts that are read as definitions.

## Main results

* `Source.Closed.exists_pairs` — **counting finds the closer that splitting pairs with the opener.**
* `ReadIn.closed` — all texts that are read in a balanced one are balanced.
* `Definitions.exists_isSplit_of_run_lift` — lifting reports brackets and literals only of a text
  that cannot be split.
* `Definitions.splits_within` — **only the outermost split can fail.**
-/

namespace Ebnf

open Source (Balanced Closed bracketEnd? splitTop)

/-! ### Pairs of brackets -/

namespace Source

/-- Splitting goes over the text from a mode and open brackets to others, at any separator and
whatever follows. -/
def GoesOver (text : List Char) (start finish : Mode × List Bracket) : Prop :=
  ∀ sep, ∃ f, ∀ rest,
    splitFrom sep start.1 start.2 (text ++ rest) = f <$> splitFrom sep finish.1 finish.2 rest

theorem goesOver_of_scan {text : List Char} {start finish : Mode × List Bracket}
    (h : scan never start.1 start.2 text = some finish) : GoesOver text start finish :=
  fun _ => exists_map_of_scan h

/-- Splitting pairs the bracket's closer behind `inner` with the opener before it, whatever is open
around them: all over `inner` the bracket stays open, at the end it is the innermost one, and its
closer closes it. -/
structure Pairs (b : Bracket) (inner : List Char) : Prop where
  within : ∀ part, part <+: inner → ∃ mode opened, ∀ outer,
    GoesOver (b.opener :: part) (.plain, outer) (mode, opened ++ b :: outer)
  before : ∀ outer, GoesOver (b.opener :: inner) (.plain, outer) (.plain, b :: outer)
  behind : ∀ outer, GoesOver (b.opener :: (inner ++ [b.closer])) (.plain, outer) (.plain, outer)

theorem Closed.pairs {inner : List Char} (h : Closed inner) (b : Bracket) : Pairs b inner where
  within := by
    rintro part ⟨rest, rfl⟩
    obtain ⟨mode, opened, hpart, -⟩ := exists_scan_of_append h
    exact ⟨mode, opened, fun outer => goesOver_of_scan (scan_opener.trans (scan_under _ hpart))⟩
  before := fun outer => goesOver_of_scan (scan_opener.trans (h.scan_eq (b :: outer)))
  behind := fun outer => goesOver_of_scan <| by
    rw [scan_opener, scan_append (h.scan_eq (b :: outer)),
      scan_cons_of_step (by simp [never]) (step_closer outer b), next_closer, scan_nil]

/-- **Counting finds the closer that splitting pairs with the opener**, and what stands between them
is balanced. -/
theorem Closed.exists_pairs {b : Bracket} {rest : List Char} (h : Closed (b.opener :: rest)) :
    ∃ inner after, rest = inner ++ b.closer :: after ∧
      bracketEnd? (b.opener :: rest) 0 = some (inner.length + 1) ∧ Pairs b inner ∧
      Closed inner := by
  obtain ⟨inner, after, rfl, hinner, -⟩ := h.exists_closer
  exact ⟨inner, after, rfl, bracketEnd?_of_closed b hinner after, hinner.pairs b, hinner⟩

end Source

/-! ### Texts that are read -/

/-- The token is one of an alternative of the text: both splits succeed and lead to it. -/
def IsTokenOf (text token : List Char) : Prop :=
  ∃ pieces piece tokens, splitTop '|' text = .ok pieces ∧ piece ∈ pieces ∧ piece ≠ [] ∧
    splitTop ',' piece = .ok tokens ∧ token ∈ tokens

/-- The texts that are read as definitions when the body is: itself, and what stands in a bracket
that is a token of one. -/
inductive ReadIn (body : List Char) : List Char → Prop
  /-- The body itself. -/
  | body : ReadIn body body
  /-- What stands in a bracket that is a token as a whole. -/
  | inner {text rest : List Char} {b : Bracket} (h : ReadIn body text)
    (htoken : IsTokenOf text (b.opener :: rest))
    (hend : bracketEnd? (b.opener :: rest) 0 = some rest.length) : ReadIn body rest.dropLast

/-- Tokens of a text leave no bracket and no literal open. -/
theorem IsTokenOf.closed {text token : List Char} (h : IsTokenOf text token) : Closed token := by
  obtain ⟨_, _, _, -, -, -, hsplit, htoken⟩ := h
  exact (Source.solid_of_mem_splitTop hsplit token htoken).closed

/-- All texts that are read in a balanced one are balanced, so that no split in them can fail. -/
theorem ReadIn.closed {body text : List Char} (h : ReadIn body text) (hbody : Closed body) :
    Closed text := by
  cases h with
  | body => exact hbody
  | inner h htoken hend =>
    obtain ⟨inner, rfl, hinner⟩ := Source.eq_append_closer_of_bracketEnd? htoken.closed hend
    rwa [List.dropLast_concat]

section AnyEngine

variable [Pattern.Engine]

/-! ### Lifting -/

/-- The fault is that brackets or literals do not match. -/
def BuildFault.IsUnmatched (fault : BuildFault) : Prop :=
  ∃ f, fault = .grammar f ∧
    (f.cause.kind = .unbalancedBracket ∨ f.cause.kind = .unterminatedLiteral)

theorem Build.not_isUnmatched_of_run_reserve {b b' : Builder} {name : String}
    {statement : Option String} {fault : BuildFault}
    (h : (Build.reserve name statement).run b = (.error fault, b')) : ¬fault.IsUnmatched := by
  rw [Build.run_reserve_eq_error h]
  rintro ⟨_, ⟨⟩, hkind | hkind⟩ <;> cases hkind

theorem Build.not_isUnmatched_of_run_define {b b' : Builder} {r : Rule} {fault : BuildFault}
    (h : (Build.define r).run b = (.error fault, b')) : ¬fault.IsUnmatched := by
  rcases Build.run_define_eq_error h with rfl | rfl
  · rintro ⟨_, ⟨⟩, -⟩
  · rintro ⟨_, ⟨⟩, hkind | hkind⟩ <;> cases hkind

section

variable {owner statement : String} {fault : BuildFault}

mutual

/-- If lifting a primary reports brackets or literals that do not match, some text in it could not
be split. -/
theorem Primary.exists_isSplit_of_run_lift : ∀ {p : Primary} {parent : String} {b b' : Builder},
    (p.lift owner statement parent).run b = (.error fault, b') → fault.IsUnmatched →
    ∃ why ∈ p.unreadables, why.IsSplit
  | .terminal _, _, _, _, h, _ | .pattern _, _, _, _, h, _ | .name _, _, _, _, h, _ => by
    rw [Primary.lift] at h
    cases h
  | .unreadable why, parent, _, _, h, hunmatched => by
    rw [Primary.lift] at h
    cases h
    obtain ⟨_, ⟨⟩, hkind⟩ := hunmatched
    rw [Primary.unreadables]
    exact ⟨why, List.mem_singleton.mpr rfl, Unreadable.isSplit_of_kind hkind⟩
  | .bracketed bracket inner, parent, _, _, h, hunmatched => by
    rw [Primary.lift, Build.run_bind (Build.run_freshName _ _)] at h
    rw [Primary.unreadables]
    -- neither reserving nor defining a rule can find brackets that do not match
    rcases Build.run_bind_eq_error h with h | ⟨_, _, -, h⟩
    · exact absurd hunmatched (Build.not_isUnmatched_of_run_reserve h)
    rcases Build.run_bind_eq_error h with h | ⟨_, _, -, h⟩
    · exact Definitions.exists_isSplit_of_run_lift h hunmatched
    rcases Build.run_bind_eq_error h with h | ⟨_, _, -, h⟩
    · exact absurd hunmatched (Build.not_isUnmatched_of_run_define h)
    · cases h

theorem Primary.exists_isSplit_of_run_liftAll : ∀ {ps : List Primary} {parent : String}
    {b b' : Builder}, (Primary.liftAll owner statement parent ps).run b = (.error fault, b') →
    fault.IsUnmatched → ∃ why ∈ Primary.allUnreadables ps, why.IsSplit
  | [], _, _, _, h, _ => by
    rw [Primary.liftAll] at h
    cases h
  | p :: rest, _, _, _, h, hunmatched => by
    rw [Primary.liftAll] at h
    rw [Primary.allUnreadables]
    rcases Build.run_cons_eq_error h with h | ⟨_, _, -, h⟩
    · obtain ⟨why, hwhy, hsplit⟩ := Primary.exists_isSplit_of_run_lift h hunmatched
      exact ⟨why, List.mem_append_left _ hwhy, hsplit⟩
    · obtain ⟨why, hwhy, hsplit⟩ := Primary.exists_isSplit_of_run_liftAll h hunmatched
      exact ⟨why, List.mem_append_right _ hwhy, hsplit⟩

/-- Lifting reports brackets and literals that do not match only of a text that cannot be split. -/
theorem Definitions.exists_isSplit_of_run_lift : ∀ {d : List (List Primary)} {parent : String}
    {b b' : Builder}, (Definitions.lift owner statement parent d).run b = (.error fault, b') →
    fault.IsUnmatched → ∃ why ∈ Definitions.unreadables d, why.IsSplit
  | [], _, _, _, h, _ => by
    rw [Definitions.lift] at h
    cases h
  | alt :: rest, _, _, _, h, hunmatched => by
    rw [Definitions.lift] at h
    rw [Definitions.unreadables]
    rcases Build.run_cons_eq_error h with h | ⟨_, _, -, h⟩
    · obtain ⟨why, hwhy, hsplit⟩ := Primary.exists_isSplit_of_run_liftAll h hunmatched
      exact ⟨why, List.mem_append_left _ hwhy, hsplit⟩
    · obtain ⟨why, hwhy, hsplit⟩ := Definitions.exists_isSplit_of_run_lift h hunmatched
      exact ⟨why, List.mem_append_right _ hwhy, hsplit⟩

end

/-- Lifting definitions reports brackets and literals that do not match only if the first split
fails, and then nothing is reserved. -/
theorem Definitions.error_of_run_lift_read {body : List Char} {parent : String} {b b' : Builder}
    (h : (Definitions.lift owner statement parent (readDefinitions body)).run b
      = (.error fault, b')) (hunmatched : fault.IsUnmatched) :
    b' = b ∧ ∃ f, splitTop '|' body = .error f ∧
      fault = .grammar ⟨.split f (String.ofList body), some statement⟩ := by
  rcases hsplit : splitTop '|' body with f | pieces
  · rw [readDefinitions_of_error hsplit, Definitions.lift, Primary.liftAll, Primary.lift] at h
    cases h
    exact ⟨rfl, f, rfl, rfl⟩
  · obtain ⟨why, hwhy, hwhysplit⟩ := Definitions.exists_isSplit_of_run_lift h hunmatched
    have hclosed := (Source.exists_splitTop_iff.mp ⟨pieces, hsplit⟩).closed
    exact absurd hwhysplit (Definitions.wellSplit_read hclosed why hwhy)

end

namespace Definitions

/-- A statement reports brackets and literals that do not match before any rule but its own is
reserved. -/
theorem error_of_run_statement {raw : List Char} {b b' : Builder} {fault : BuildFault}
    (h : (Build.statement raw).run b = (.error fault, b')) (hunmatched : fault.IsUnmatched) :
    ∃ s body f, Statement.read raw = .ok s ∧ s.definitions = readDefinitions body ∧
      splitTop '|' body = .error f ∧
      fault = .grammar ⟨.split f (String.ofList body), some s.text⟩ ∧
      b' = { b with slots := b.slots ++ [(s.name, none)] } := by
  rw [Build.statement] at h
  rcases hread : Statement.read raw with f | s
  · -- the equals sign and the name come first, and are no matter of brackets
    rw [hread] at h
    cases h
    obtain ⟨_, ⟨⟩, hkind⟩ := hunmatched
    have hmem := Statement.kind_of_read hread
    rcases hkind with hkind | hkind <;> rw [hkind] at hmem <;> exact absurd hmem (by decide)
  · rw [hread] at h
    dsimp only at h
    -- a name that is taken is reported for itself
    by_cases hname : s.name ∈ b.order
    · rcases Build.run_bind_eq_error h with h | ⟨_, _, hreserve, -⟩
      · exact absurd hunmatched (Build.not_isUnmatched_of_run_reserve h)
      · rw [Build.run_reserve_of_mem hname] at hreserve
        cases hreserve
    rw [Build.run_bind (Build.run_reserve hname _)] at h
    rcases Build.run_bind_eq_error h with h | ⟨_, _, -, h⟩
    · -- the definitions of a statement are read from what follows its equals sign
      obtain ⟨cut, -, hdefinitions⟩ := Statement.exists_cut_of_read hread
      rw [hdefinitions] at h
      obtain ⟨rfl, f, hsplit, rfl⟩ := Definitions.error_of_run_lift_read h hunmatched
      exact ⟨s, _, f, rfl, hdefinitions, hsplit, rfl, rfl⟩
    rcases Build.run_bind_eq_error h with h | ⟨_, _, -, h⟩
    · exact absurd hunmatched (Build.not_isUnmatched_of_run_define h)
    · cases h

/-- **Only the outermost split can fail.**  If the text of definitions can be split at bars, then so
can all texts that are read in it, and their alternatives at commas.  In every token that begins
with an opener, counting brackets of any kind ends at the closer of the same kind that splitting
pairs with the opener, and what stands between them is balanced.  So brackets and literals that do
not match are reported before any rule is reserved for a bracket, and of whole texts a literal
without end is reported only when they are cut into statements. -/
theorem splits_within :
    (∀ body pieces, splitTop '|' body = .ok pieces →
      (∀ text, ReadIn body text → Balanced text ∧
        ∃ pieces, splitTop '|' text = .ok pieces ∧
          ∀ piece ∈ pieces, ∃ tokens, splitTop ',' piece = .ok tokens) ∧
      (∀ text b rest, ReadIn body text → IsTokenOf text (b.opener :: rest) →
        ∃ inner after, rest = inner ++ b.closer :: after ∧
          bracketEnd? (b.opener :: rest) 0 = some (inner.length + 1) ∧ Source.Pairs b inner ∧
          Balanced inner) ∧
      Definitions.WellSplit (readDefinitions body)) ∧
    (∀ body owner statement parent b fault b',
      (Definitions.lift owner statement parent (readDefinitions body)).run b = (.error fault, b') →
      fault.IsUnmatched → b' = b ∧ ∃ f, splitTop '|' body = .error f ∧
        fault = .grammar ⟨.split f (String.ofList body), some statement⟩) ∧
    (∀ raw b fault b', (Build.statement raw).run b = (.error fault, b') → fault.IsUnmatched →
      ∃ s body f, Statement.read raw = .ok s ∧ s.definitions = readDefinitions body ∧
        splitTop '|' body = .error f ∧
        fault = .grammar ⟨.split f (String.ofList body), some s.text⟩ ∧
        b' = { b with slots := b.slots ++ [(s.name, none)] }) ∧
    ∀ text fault, Grammar.compile text = .error (.grammar fault) →
      fault.cause.kind = .unterminatedLiteral →
      ∃ place tail, Source.readStatements text = .error (.openLiteral place tail) ∧
        fault = .ofText (.openLiteral place tail) := by
  refine ⟨fun body pieces hsplit => ?_,
    fun body owner statement parent b fault b' h hunmatched => error_of_run_lift_read h hunmatched,
    fun raw b fault b' h hunmatched => error_of_run_statement h hunmatched,
    fun text fault h hkind => ?_⟩
  · -- a text that can be split is closed, and closedness passes to the texts read in it
    have hbody : Closed body := (Source.exists_splitTop_iff.mp ⟨pieces, hsplit⟩).closed
    refine ⟨fun text htext => ?_, fun text b rest _ htoken => ?_, wellSplit_read hbody⟩
    · have hclosed := htext.closed hbody
      obtain ⟨pieces', hsplit'⟩ := hclosed.exists_splitTop '|'
      refine ⟨hclosed.balanced, pieces', hsplit', fun piece hpiece => ?_⟩
      exact (Source.solid_of_mem_splitTop hsplit' piece hpiece).closed.exists_splitTop ','
    · -- of a token with an opener, the closer that splitting pairs with it is the one counting
      -- finds
      obtain ⟨inner, after, hrest, hend, hpairs, hinner⟩ := htoken.closed.exists_pairs
      exact ⟨inner, after, hrest, hend, hpairs, hinner.balanced⟩
  · -- of the faults of whole texts only an open literal is of this kind
    obtain ⟨cut, hbreaks, rfl⟩ := (Grammar.compile_eq_error_iff.mp h).breaksOff_of_kind hkind
    cases cut with
    | openComment place => cases hkind
    | openLiteral place tail => exact ⟨place, tail, hbreaks.readStatements_eq, rfl⟩

end Definitions

end AnyEngine

namespace Definitions

attribute [local instance] Pattern.Engine.verbatim

/-- A closer of the wrong kind in a statement is reported when only its own rule is reserved. -/
theorem run_statement_wrong : (Build.statement ['X', '=', '(', ']']).run (.empty [])
    = (.error (.grammar ⟨.split (.unexpectedCloser ']') "(]", some "X=(]"⟩),
      ⟨[], [("X", none)], []⟩) := by
  have hread : Statement.read ['X', '=', '(', ']']
      = .ok ⟨"X", [[.unreadable (.split (.unexpectedCloser ']') ['(', ']'])]], "X=(]"⟩ := by
    cbv
  rw [Build.statement, hread]
  rfl

/-- A bracket with a closer in a literal and another bracket in it, a statement with a wrong closer,
and a text that ends in a literal. -/
theorem splits_within_bracket :
    Source.Pairs .optional ['"', ')', '"', '|', '(', 'b', ')'] ∧
      (∃ s, Statement.read ['X', '=', '(', ']'] = .ok s ∧ s.name = "X") ∧
      ∃ place tail, Source.readStatements ['"'] = .error (.openLiteral place tail) := by
  obtain ⟨hread, -, hstatement, htext⟩ := splits_within
  refine ⟨?_, ?_, ?_⟩
  · have hsplit : ∀ sep ∈ ['|', ','],
        splitTop sep ['[', '"', ')', '"', '|', '(', 'b', ')', ']']
          = .ok [['[', '"', ')', '"', '|', '(', 'b', ')', ']']] := by
      simp only [List.forall_mem_cons]
      exact ⟨rfl, rfl, nofun⟩
    -- the bracket with a closer in a literal
    have hbar := hsplit '|' (by decide)
    have hcomma := hsplit ',' (by decide)
    obtain ⟨-, htoken, -⟩ := hread _ _ hbar
    obtain ⟨inner, after, hrest, hend, hpairs, -⟩ := htoken _ .optional _ .body
      ⟨_, _, _, hbar, List.mem_cons_self, by decide, hcomma, List.mem_cons_self⟩
    have hlength : inner.length = 7 := by
      have hseven : bracketEnd? (Bracket.opener .optional ::
          ['"', ')', '"', '|', '(', 'b', ')', ']']) 0 = some 8 := rfl
      exact Nat.succ.inj (Option.some.inj (hend.symm.trans hseven))
    have hinner := congrArg (List.take 7) hrest
    rw [List.take_left' hlength] at hinner
    rwa [← hinner] at hpairs
  · -- the statement with a wrong closer
    obtain ⟨s, _, _, hs, -, -, -, hslots⟩ :=
      hstatement _ _ _ _ run_statement_wrong ⟨_, rfl, Or.inl rfl⟩
    have hslots : [("X", none)] = [] ++ [(s.name, none)] := congrArg Builder.slots hslots
    exact ⟨s, hs, (Prod.mk.inj (List.cons.inj hslots).1).1.symm⟩
  · -- the text that ends in a literal
    have hcompile : Grammar.compile ['"']
        = .error (.grammar (.ofText (.openLiteral .first ['"']))) := by
      cbv
    obtain ⟨place, tail, hfault, -⟩ := htext _ _ hcompile rfl
    exact ⟨place, tail, hfault⟩

end Definitions

end Ebnf
