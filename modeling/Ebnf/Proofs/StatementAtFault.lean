import Ebnf.Proofs.Grammar.Forest
import Ebnf.Proofs.Match.Lookup
import Ebnf.Proofs.NodeTypes

/-!
# The statement at fault

Whatever is wrong with a grammar text lies in one of its statements, unless the text has none or a
comment in it does not end.  A report carries the text of that statement: without its blanks, or, if
the statement ends within a literal, as it stands.  Only the report of a name that is no node type
carries none, although a statement declares the name.

## Main definitions

* `NodeTypeFault.names` — the names that are no node types.
* `Grammar.LiesIn` — in which statement of a text a cause of a fault lies.

## Main results

* `Source.after_of_getLast?_cutPlain` — the last piece of a text ends where the text does.
* `statement_of_faultOf?` — what is wrong with a statement is reported with it.
* `Builder.lookup_statementsOf` — missing names are reported with the statements they stand in.
* `Grammar.statement_of_compile` — **which statement a report carries.**
-/

namespace Ebnf

open Source (dropBlanks Strips OpensLiteral BreaksOff CutInto cutPlain cutPlainFrom)
open Text (strip)

/-! ### Unfinished statements -/

namespace Source

/-- The last element of a list is its head if nothing follows it. -/
theorem forall_getLast?_cons {α : Type} {P : α → Prop} {a : α} {l : List α} (hnil : l = [] → P a)
    (hlast : ∀ b, l.getLast? = some b → P b) : ∀ b, (a :: l).getLast? = some b → P b := by
  intro b h
  cases l with
  | nil =>
    cases h
    exact hnil rfl
  | cons c l =>
    rw [List.getLast?_cons_cons] at h
    exact hlast b h

/-- The last piece ends in the mode in which the text does. -/
theorem after_cutPlainFrom (sep : Char) : ∀ {text : List Char} {mode : Mode},
    ((cutPlainFrom sep mode text).2 = [] →
      mode.after (cutPlainFrom sep mode text).1 = mode.after text) ∧
    ∀ last, (cutPlainFrom sep mode text).2.getLast? = some last →
      Mode.after .plain last = mode.after text := by
  intro text
  induction text with
  -- a text that has ended is one piece
  | nil =>
    intro mode
    refine ⟨fun _ => rfl, fun last hlast => ?_⟩
    cases hlast
  | cons c text ih =>
    intro mode
    rw [cutPlainFrom, Mode.after_cons]
    split
    · next hcut =>
      obtain ⟨rfl, -, hquote⟩ := hcut
      rw [Mode.next_plain hquote]
      -- what follows the separator is cut on its own
      obtain ⟨hfirst, hothers⟩ := @ih .plain
      exact ⟨fun hnil => absurd hnil (List.cons_ne_nil _ _), forall_getLast?_cons hfirst hothers⟩
    · exact ih

/-- The last piece of a text ends where the text does: in a literal if that is still open. -/
theorem after_of_getLast?_cutPlain {sep : Char} {text last : List Char}
    (h : (cutPlain sep text).getLast? = some last) :
    Mode.after .plain last = Mode.after .plain text := by
  obtain ⟨hfirst, hothers⟩ := @after_cutPlainFrom sep text .plain
  exact forall_getLast?_cons hfirst hothers last h

/-- The literal in which a text ends stands in its last piece. -/
theorem OpensLiteral.exists_last {sep : Char} {text before : List Char}
    (h : OpensLiteral .plain text before) :
    ∃ last part, (cutPlain sep text).getLast? = some last ∧ OpensLiteral .plain last part := by
  obtain ⟨last, hlast⟩ : ∃ last, (cutPlain sep text).getLast? = some last :=
    Option.isSome_iff_exists.mp (by rw [List.getLast?_isSome]; exact List.cons_ne_nil _ _)
  have hopen : openQuote? text ≠ none := by
    rw [openQuote?_eq_some_iff.mpr ⟨before, h, rfl⟩]
    exact Option.some_ne_none _
  have hlast' : openQuote? last ≠ none := by
    rwa [Ne, openQuote?_eq_none_iff, after_of_getLast?_cutPlain hlast, ← openQuote?_eq_none_iff]
  obtain ⟨place, hplace⟩ := Option.ne_none_iff_exists'.mp hlast'
  obtain ⟨part, hpart, -⟩ := openQuote?_eq_some_iff.mp hplace
  exact ⟨last, part, hlast, hpart⟩

end Source

/-! ### Names refused -/

/-- The names that are no node types, as the report of the fault lists them. -/
def NodeTypeFault.names : NodeTypeFault → List String
  | .reserved name => [name]
  | .invalid names => names
  | .slots => ["__slots__"]

theorem filterAuxM_eq_error {ε α : Type} {f : α → Except ε Bool} {e : ε} :
    ∀ {l acc : List α}, l.filterAuxM f acc = .error e → ∃ a ∈ l, f a = .error e := by
  intro l
  induction l with
  | nil => exact fun h => nomatch h
  | cons a l ih =>
    intro acc h
    rw [List.filterAuxM] at h
    rcases ha : f a with e' | keep
    · rw [ha] at h
      cases h
      exact ⟨a, List.mem_cons_self, ha⟩
    · rw [ha] at h
      obtain ⟨a', ha', he⟩ := @ih (cond keep (a :: acc) acc) h
      exact ⟨a', List.mem_cons_of_mem _ ha', he⟩

theorem filterM_eq_error {ε α : Type} {f : α → Except ε Bool} {e : ε} {l : List α}
    (h : l.filterM f = .error e) : ∃ a ∈ l, f a = .error e := by
  rw [List.filterM] at h
  rcases haux : l.filterAuxM f [] with e' | reversed
  · rw [haux] at h
    cases h
    exact filterAuxM_eq_error haux
  · rw [haux] at h
    cases h

namespace NodeType

theorem eq_reserved_of_isMember {name : String} {fault : NodeTypeFault}
    (h : isMember name = .error fault) : fault = .reserved name := by
  unfold isMember at h
  split_ifs at h with hprivate hsunder haccepted
  cases h
  rfl

/-- One of the names is reported, and it is refused. -/
theorem exists_mem_of_members {names : List String} {fault : NodeTypeFault}
    (h : members names = .error fault) : ∃ name ∈ names, name ∈ fault.names := by
  rw [members] at h
  -- a name is refused by itself, before the names are looked at together
  rcases hfilter : names.filterM isMember with fault' | found
  · rw [hfilter] at h
    cases h
    obtain ⟨name, hname, hmember⟩ := filterM_eq_error hfilter
    rw [eq_reserved_of_isMember hmember]
    exact ⟨name, hname, List.mem_singleton.mpr rfl⟩
  · rw [hfilter] at h
    obtain ⟨-, hfound⟩ := filterM_eq_ok_iff.mp hfilter
    dsimp only [bind, Except.bind] at h
    split at h
    · -- otherwise it is the name for slots, or a name that no member may have
      by_cases hslots : "__slots__" ∈ names
      · rw [if_pos hslots] at h
        cases h
        exact ⟨_, hslots, List.mem_singleton.mpr rfl⟩
      · rw [if_neg hslots] at h
        cases h
    · next invalid hne =>
      cases h
      obtain ⟨name, hname⟩ := List.exists_mem_of_ne_nil _ hne
      have hmem : name ∈ found := by simpa using (List.mem_filter.mp hname).2
      rw [hfound] at hmem
      exact ⟨name, List.mem_of_mem_filter hmem, hname⟩

end NodeType

section AnyEngine

variable [Pattern.Engine]

/-! ### Statements that fail -/

section

variable {raw : List Char} {fault : Fault}

theorem Statement.statement_of_read (h : Statement.read raw = .error fault) :
    fault.statement = some (String.ofList (dropBlanks raw)) := by
  rw [Statement.read] at h
  dsimp only at h
  split at h
  · cases h
    rfl
  · cases h
    rfl
  · split at h
    · cases h
      rfl
    · cases h

theorem Statement.text_of_read {s : Statement} (h : Statement.read raw = .ok s) :
    s.text = String.ofList (dropBlanks raw) := by
  rw [Statement.read] at h
  dsimp only at h
  split at h
  · cases h
  · cases h
  · split at h
    · cases h
    · cases h
      rfl

/-- What is wrong with a statement is reported with the text of that statement, without its layout.
-/
theorem statement_of_faultOf? {declared earlier : List String}
    (h : faultOf? declared earlier raw = some fault) :
    fault.statement = some (String.ofList (dropBlanks raw)) := by
  rcases hread : Statement.read raw with fault' | s
  · rw [faultOf?, hread] at h
    cases h
    exact Statement.statement_of_read hread
  · rw [faultOf?_of_read hread, Statement.text_of_read hread] at h
    split at h
    · cases h
      rfl
    · obtain ⟨cause, -, rfl⟩ := Option.map_eq_some_iff.mp h
      rfl

theorem Build.run_statements_append {rest : List (List Char)} : ∀ {raws : List (List Char)}
    {b b' : Builder}, (raws.forM fun raw => discard (Build.statement raw)).run b = (.ok (), b') →
    ((raws ++ rest).forM fun raw => discard (Build.statement raw)).run b
      = (rest.forM fun raw => discard (Build.statement raw)).run b' := by
  intro raws
  induction raws with
  | nil =>
    intro b b' h
    cases h
    rfl
  | cons raw raws ih =>
    intro b b' h
    obtain ⟨name, s, hraw, hraws⟩ := run_statements_cons_eq_ok h
    rw [List.cons_append, run_statements_cons hraw]
    exact ih hraws

/-- A builder that is empty and knows the names declared fails with the first fault. -/
theorem Build.run_statements_empty {declared : List String} {raws : List (List Char)}
    (h : declaredNames raws ⊆ declared) :
    ∃ b, (raws.forM fun raw => discard (Build.statement raw)).run (Builder.empty declared) =
      ((firstFault? declared [] raws).elim (.ok ()) (.error <| .grammar ·), b) :=
  run_statements_eq List.nodup_nil (Builder.numbered_empty _) h fun _ _ => Iff.rfl

/-- The statements before the one at fault are added, and adding that one fails. -/
theorem Build.exists_run_of_faultOf? {before after : List (List Char)} (hbefore : WellFormed before)
    (h : faultOf? (declaredNames (before ++ raw :: after)) (declaredNames before) raw
      = some fault) :
    ∃ b b', (before.forM fun raw => discard (Build.statement raw)).run
        (Builder.empty (declaredNames (before ++ raw :: after))) = (.ok (), b) ∧
      (Build.statement raw).run b = (.error (.grammar fault), b') := by
  have hdeclared : declaredNames before ⊆ declaredNames (before ++ raw :: after) :=
    List.filterMap_subset _ (List.subset_append_left _ _)
  have hdeclared' : declaredNames (before ++ [raw]) ⊆ declaredNames (before ++ raw :: after) :=
    List.filterMap_subset _ (by simp)
  have hnone := @wellFormed_iff _ (declaredNames (before ++ raw :: after)) before
  have hfirst := firstFault?_eq_some_iff.mpr ⟨before, raw, [], rfl, hnone.mpr hbefore, h⟩
  -- the statements before it can be added
  obtain ⟨b, hrun⟩ := run_statements_empty hdeclared
  rw [hnone.mpr hbefore] at hrun
  -- with the statement at fault as the last one the run fails
  obtain ⟨b', hfails⟩ := run_statements_empty hdeclared'
  rw [hfirst, run_statements_append hrun] at hfails
  rcases hraw : (Build.statement raw).run b with ⟨fault' | name, s⟩
  · have hlast : ([raw].forM fun raw => discard (Build.statement raw)).run b
        = (.error fault', s) := by
      refine run_bind_of_error ?_ _
      dsimp only
      rw [discard_eq]
      exact run_bind_of_error hraw _
    rw [hlast] at hfails
    cases hfails
    exact ⟨b, _, hrun, hraw⟩
  · rw [run_statements_cons hraw] at hfails
    cases hfails

end

/-! ### Missing names -/

/-- What the rules of a statement refer to is written in it or is the name of one of them. -/
theorem Statement.Makes.mem_references {s : Statement} {rules : List Rule} (h : s.Makes rules)
    {r : Rule} (hr : r ∈ rules) {name : String} (hname : name ∈ r.references) :
    name ∈ Definitions.references s.definitions ∨ name ∈ rules.map (·.name) := by
  obtain ⟨atom, hatom, hreference⟩ := List.mem_filterMap.mp hname
  cases atom with
  | terminal => cases hreference
  | pattern => cases hreference
  | reference =>
    cases hreference
    obtain ⟨alts, below, hlift, rfl⟩ := h
    refine Or.inl (hlift.mem_references.mpr ?_)
    rcases List.mem_cons.mp hr with rfl | hbelow
    · exact Or.inl hatom
    · exact Or.inr ⟨r, hbelow, hatom⟩
  | lifted bracket =>
    cases hreference
    have hbracket : (bracket.word, name) ∈ r.brackets := List.mem_filterMap.mpr ⟨_, hatom, rfl⟩
    obtain ⟨r', hr', hname', -⟩ := h.exists_rule_of_bracket hr hbracket
    exact Or.inr (List.mem_map.mpr ⟨r', hr', hname'⟩)

namespace Builder

/-- The statements reported are those of the homes, each once, with the sources of their rules. -/
theorem forall₂_of_statementsOf {rules : List Rule} {homes : List String}
    {texts : List (String × String)} (h : statementsOf rules homes = .ok texts) :
    List.Forall₂ (fun home entry => home = entry.1 ∧
      ∃ r, rules.find? (·.name = home) = some r ∧ entry.2 = r.source)
      (homes.foldl (fun seen home => if home ∈ seen then seen else seen ++ [home]) []) texts := by
  refine (forall₂_of_mapM_eq_ok h).imp fun home entry hentry => ?_
  rcases hfind : rules.find? (·.name = home) with _ | r
  · rw [hfind] at hentry
    cases hentry
  · rw [hfind] at hentry
    cases hentry
    exact ⟨rfl, r, hfind, rfl⟩

/-- Missing names are reported with the statements they stand in, each under the name of its rule.
-/
theorem lookup_statementsOf {rules : List Rule} {homes : List String}
    {texts : List (String × String)} (h : statementsOf rules homes = .ok texts) {home : String}
    (hhome : home ∈ homes) :
    ∃ r, rules.find? (·.name = home) = some r ∧ texts.lookup home = some r.source := by
  have hmem : home ∈ homes.foldl
      (fun seen home => if home ∈ seen then seen else seen ++ [home]) [] :=
    -- every name asked for is among those that are listed
    mem_foldl_insert.mpr (Or.inr hhome)
  have hmap := forall₂_of_statementsOf h
  clear h
  revert hmem
  generalize homes.foldl (fun seen home => if home ∈ seen then seen else seen ++ [home]) [] = l
    at hmap
  intro hmem
  induction hmap with
  | nil => cases hmem
  | @cons key entry keys texts hentry _ ih =>
    obtain ⟨key', text⟩ := entry
    obtain ⟨rfl, r, hfind, rfl⟩ := hentry
    by_cases heq : home = key
    · subst heq
      exact ⟨r, hfind, List.lookup_cons_self⟩
    · obtain ⟨r', hr', hlookup⟩ := ih ((List.mem_cons.mp hmem).resolve_left heq)
      refine ⟨r', hr', ?_⟩
      rw [List.lookup_cons, beq_eq_false_iff_ne.mpr heq]
      exact hlookup

end Builder

/-! ### Reports -/

namespace Grammar

/-- A cause of a fault lies in the statement of the text. What this means depends on the stage in
which the fault is found. -/
inductive LiesIn (text : List Char) : Cause → List Char → Prop
  /-- The literal that is open at the end stands in what is behind the last semicolon. -/
  | openLiteral {out before last part : List Char} {mode : Source.Mode}
    (hout : Strips .plain text [] out mode) (hopen : OpensLiteral .plain out before)
    (hlast : (cutPlain ';' out).getLast? = some last) (hpart : OpensLiteral .plain last part) :
    LiesIn text (.openLiteral (Text.Position.first.after before)) (strip last)
  /-- The statements before can be added, and the statement cannot. -/
  | statement {before after : List (List Char)} {raw : List Char} {b b' : Builder} {fault : Fault}
    (hraws : Source.readStatements text = .ok (before ++ raw :: after))
    (hbefore : (before.forM fun raw => discard (Build.statement raw)).run
      (Builder.empty (declaredNames (before ++ raw :: after))) = (.ok (), b))
    (hraw : (Build.statement raw).run b = (.error (.grammar fault), b')) :
    LiesIn text fault.cause (dropBlanks raw)
  /-- The first of the missing names is written in the statement. -/
  | unresolved {raws : List (List Char)} {raw : List Char} {home name : String}
    {d : Definitions} {others texts : List (String × String)} (hparses : Parses text raws)
    (hmissing : Builder.unresolved (rulesOf raws) = (home, name) :: others) (hraw : raw ∈ raws)
    (hstatement : IsStatement home d (dropBlanks raw)) (hname : name ∈ Definitions.references d) :
    LiesIn text (.unresolved ((home, name) :: others) texts) (dropBlanks raw)
  /-- The statement declares the name. -/
  | nodeType {raws : List (List Char)} {raw : List Char} {name : String} {fault : NodeTypeFault}
    (hparses : Parses text raws) (hraw : raw ∈ raws) (hdeclared : declaredName? raw = some name)
    (hname : name ∈ fault.names) : LiesIn text (.nodeType fault) (dropBlanks raw)

variable {text : List Char} {raws : List (List Char)}

theorem Parses.nodup_names (h : Parses text raws) : ((rulesOf raws).map (·.name)).Nodup := by
  rcases Build.statements_eq raws with ⟨b, -, hb⟩ | ⟨fault, hfault, -⟩
  · obtain ⟨_, _, -, -, -, -, hnodup, -⟩ := Build.statements_eq_ok hb
    rwa [Builder.order, Build.slots_of_statements hb, Rule.map_fst_slot] at hnodup
  · rw [wellFormed_iff.mpr h.wellFormed] at hfault
    cases hfault

/-- A missing name is written in the statement whose text the report looks up. -/
theorem Parses.exists_statement_of_unresolved (h : Parses text raws) {home name : String}
    (hmissing : (home, name) ∈ Builder.unresolved (rulesOf raws)) :
    ∃ raw ∈ raws, ∃ d, IsStatement home d (dropBlanks raw) ∧ name ∈ Definitions.references d := by
  obtain ⟨r, hr, rfl, hname, hno⟩ := Builder.mem_unresolved.mp hmissing
  obtain ⟨raw, hraw, hr⟩ := List.mem_flatMap.mp hr
  obtain ⟨home, d, hstatement⟩ := h.wellFormed.isStatement raw hraw
  obtain ⟨hmakes, hhome⟩ := hstatement.makes_blockOf (declaredNames raws)
  rw [hhome r hr]
  refine ⟨raw, hraw, d, hstatement, (hmakes.mem_references hr hname).resolve_right fun hmem => ?_⟩
  obtain ⟨r', hr', hname'⟩ := List.mem_map.mp hmem
  exact hno r' (List.mem_flatMap.mpr ⟨raw, hraw, hr'⟩) hname'

/-- The source of the rule that a statement declares is the statement. -/
theorem Parses.source_eq (h : Parses text raws) {raw : List Char} (hraw : raw ∈ raws)
    {name : String} {d : Definitions} (hstatement : IsStatement name d (dropBlanks raw)) {r : Rule}
    (hfind : (rulesOf raws).find? (·.name = name) = some r) :
    r.source = String.ofList (dropBlanks raw) := by
  have hmem : Statement.rule ⟨name, d, String.ofList (dropBlanks raw)⟩
      (Definitions.lifted (nextNumber (declaredNames raws)) name name 0 d).left ∈ rulesOf raws := by
    refine List.mem_flatMap.mpr ⟨raw, hraw, ?_⟩
    rw [blockOf_of_read hstatement.read_eq]
    exact List.mem_cons_self
  have hsame := Rule.find?_eq_some_of_nodup h.nodup_names hmem
  rw [Statement.rule] at hsame
  dsimp only at hsame
  rw [hfind] at hsame
  cases hsame
  rfl

/-- **Which statement a report carries.**  Whatever is wrong with a text, unless it has no statement
or a comment without end, lies in one of its statements, and the report carries the text of that
statement; only that of a name that is no node type carries none. -/
theorem statement_of_compile {fault : Fault} (h : compile text = .error (.grammar fault))
    (hempty : fault.cause.kind ≠ .emptyGrammar)
    (hcomment : fault.cause.kind ≠ .unterminatedComment) :
    ∃ statement, LiesIn text fault.cause statement ∧
      ((∀ refused, fault.cause ≠ .nodeType refused) →
        fault.statement = some (String.ofList statement)) ∧
      ∀ refused, fault.cause = .nodeType refused → fault.statement = none := by
  have hfails := compile_eq_error_iff.mp h
  -- in each stage the statement is where the stage found what is wrong
  cases hfails with
  | @breaksOff cut hcut =>
    cases hcut with
    | comment => exact absurd rfl hcomment
    | @literal out before mode hout hopen =>
      obtain ⟨last, part, hlast, hpart⟩ := @Source.OpensLiteral.exists_last ';' _ _ hopen
      refine ⟨strip last, .openLiteral hout hopen hlast hpart, fun _ => ?_, nofun⟩
      rw [hlast]
      rfl
  -- the statement that cannot be added is at fault itself
  | @statement before after raw fault hcut hbefore hfault =>
    obtain ⟨b, b', hrun, hraw⟩ := Build.exists_run_of_faultOf? hbefore hfault
    refine ⟨dropBlanks raw, .statement hcut.readStatements_eq hrun hraw,
      fun _ => statement_of_faultOf? hfault, fun refused hcause => ?_⟩
    obtain ⟨cause, statement⟩ := fault
    cases hcause
    exact absurd hfault faultOf?_ne_nodeType
  | empty => exact absurd rfl hempty
  -- a name without a rule stands in the statement in whose block it was found
  | @unresolved raws home name others texts hparses hmissing htexts =>
    obtain ⟨raw, hraw, d, hstatement, hname⟩ :=
      hparses.exists_statement_of_unresolved (hmissing ▸ List.mem_cons_self)
    obtain ⟨r, hfind, hlookup⟩ := Builder.lookup_statementsOf htexts List.mem_cons_self
    refine ⟨dropBlanks raw, .unresolved hparses hmissing hraw hstatement hname, fun _ => ?_, nofun⟩
    dsimp only
    rw [hlookup, hparses.source_eq hraw hstatement hfind]
  -- and a name that is refused is the one its statement declares
  | @refused raws refused hparses hresolved hmembers =>
    obtain ⟨name, hname, hrefused⟩ := NodeType.exists_mem_of_members hmembers
    obtain ⟨raw, hraw, hdeclared⟩ := List.mem_filterMap.mp hname
    refine ⟨dropBlanks raw, .nodeType hparses hraw hdeclared hrefused, fun hno => ?_,
      fun _ _ => rfl⟩
    exact absurd rfl (hno refused)

end Grammar

end AnyEngine

namespace Grammar

attribute [local instance] Pattern.Engine.verbatim

theorem compile_empty : compile ['A', '=', '"', 'a', '"', ';', 'B', ' ', '=', ';'] =
    .error (.grammar ⟨.emptyAlternative "B", some "B="⟩) := by
  cbv

theorem compile_sunder : compile ['_', 'x', '_', '=', '"', 'a', '"', ';'] =
    .error (.grammar ⟨.nodeType (.reserved "_x_"), none⟩) := by
  have hread : Source.readStatements ['_', 'x', '_', '=', '"', 'a', '"', ';']
      = .ok [['_', 'x', '_', '=', '"', 'a', '"']] := by
    cbv
  have hb : Build.statements [['_', 'x', '_', '=', '"', 'a', '"']] = .ok
      ⟨["_x_"], [Rule.slot ⟨"_x_", [[.terminal "a"]], "_x_=\"a\"", none, none⟩], []⟩ := by
    cbv
  rw [compile, hread]
  dsimp only
  rw [ofStatements, hb]
  rfl

/-- A report with the statement in which the fault lies, and one that lacks it. -/
theorem statement_of_compile_sunder :
    (∃ statement, LiesIn ['A', '=', '"', 'a', '"', ';', 'B', ' ', '=', ';']
        (.emptyAlternative "B") statement ∧ String.ofList statement = "B=") ∧
      (∃ statement, LiesIn ['_', 'x', '_', '=', '"', 'a', '"', ';'] (.nodeType (.reserved "_x_"))
        statement) ∧
      ∃ fault, compile ['_', 'x', '_', '=', '"', 'a', '"', ';'] = .error (.grammar fault) ∧
        fault.statement = none := by
  obtain ⟨statement, hlies, hcarried, -⟩ :=
    statement_of_compile compile_empty (by decide) (by decide)
  obtain ⟨statement', hlies', -, hnone⟩ :=
    statement_of_compile compile_sunder (by decide) (by decide)
  exact ⟨⟨statement, hlies, (Option.some.inj (hcarried nofun)).symm⟩, ⟨statement', hlies'⟩, _,
    compile_sunder, hnone _ rfl⟩

end Grammar

end Ebnf
