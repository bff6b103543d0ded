import Ebnf.CommandLine.Run
import Ebnf.Proofs.CommandLine.DebugFlag
import Ebnf.Proofs.Match.Termination
import Ebnf.Proofs.NodeTypes

/-!
# What a run reports

The program builds a grammar in stages of its own, with a report after each.  The result is that of
compiling the text of the file, so the exit status and the standard output can be told from the
grammar and the results of matches, without regard to the program.

Names that break their enumeration are the one fault that is not reported: it ends the run.

## Main definitions

* `compileFile` — the grammar that the text of a file defines.
* `Request.Fails` — the request cannot be carried out, for a reason that is reported.
* `Request.Breaks` — the names of the grammar break their enumeration.
* `Request.Shows`, `Request.Answered` — what a run writes, and with which exit status it ends.

## Main results

* `loadGrammar_snd` — building in stages is compiling.
* `withGrammar_eq` — a run on a grammar, told from the result of compiling.
* `runArguments_spec` — **every run on accepted arguments answers the request, unless names break
  their enumeration, and the flag for reports changes nothing but the standard error output.**
-/

namespace Ebnf

section AnyEngine

variable [Pattern.Engine]

namespace Grammar

/-- A grammar has a first rule. -/
theorem exists_start_of_compile {text : List Char} {g : Grammar} (h : compile text = .ok g) :
    ∃ start, g.start? = some start := by
  obtain ⟨raws, hcut, hstatements, -, hrules, -, -⟩ := names_of_compile h
  cases raws with
  | nil =>
    rw [(FailsWith.empty hcut).compile_eq] at h
    cases h
  | cons raw rest =>
    obtain ⟨name, d, hstatement⟩ := hstatements raw List.mem_cons_self
    refine ⟨name, ?_⟩
    rw [start?, topLevel_of_compile hrules hstatements, declaredNames_cons,
      declaredName?_of_isStatement hstatement]
    rfl

end Grammar

namespace CommandLine

open Grammar

/-! ### Loading -/

/-- The grammar that the text of a file defines, without a report of the stages that lead to it. -/
def compileFile (files : Files) (file : String) : Except LoadFault Grammar := do
  let text ← readGrammarFile files file
  (Grammar.compile text).mapError .grammar

/-- Building in stages is compiling: the reports made on the way do not change the grammar or the
fault. -/
theorem loadGrammar_snd (files : Files) (file : String) :
    (loadGrammar files file).2 = compileFile files file := by
  rw [loadGrammar, compileFile]
  rcases readGrammarFile files file with fault | text
  · rfl
  simp only [bind, Except.bind, Grammar.compile]
  rcases Source.readStatements text with fault | statements
  · rfl
  simp only [ofStatements, bind, Except.bind]
  rcases Build.statements statements with fault | b
  · rfl
  dsimp only
  rcases b.freeze with fault | g
  · rfl
  · rfl

theorem compileFile_eq_ok {files : Files} {file : String} {g : Grammar}
    (h : compileFile files file = .ok g) : ∃ text, Grammar.compile text = .ok g := by
  rw [compileFile] at h
  rcases hread : readGrammarFile files file with fault | text <;> rw [hread] at h
  · cases h
  · simp only [bind, Except.bind] at h
    rcases hcompile : Grammar.compile text with fault | g' <;> rw [hcompile] at h <;> cases h
    exact ⟨text, hcompile⟩

omit [Pattern.Engine] in
theorem lines_of_readGrammarFile {files : Files} {file : String} {fault : LoadFault}
    (h : readGrammarFile files file = .error fault) : ∃ lines, fault.lines = .ok lines := by
  rw [readGrammarFile] at h
  rcases hbytes : files (simplifyPath file) with fault' | bytes <;> simp only [hbytes] at h
  · cases h
    exact ⟨_, rfl⟩
  · rcases hdecode : decodeGrammar bytes with fault' | text <;> rw [hdecode] at h <;> cases h
    exact ⟨_, rfl⟩

/-- Faults of grammar files are reported, unless names break their enumeration. -/
theorem lines_of_compileFile {files : Files} {file : String} {fault : LoadFault}
    (h : compileFile files file = .error fault) :
    (∃ lines, fault.lines = .ok lines) ∨ ∃ broken, fault = .grammar (.enumeration broken) := by
  rw [compileFile] at h
  rcases hread : readGrammarFile files file with fault' | text <;> rw [hread] at h
  · cases h
    exact Or.inl (lines_of_readGrammarFile hread)
  · simp only [bind, Except.bind] at h
    rcases hcompile : Grammar.compile text with fault' | g' <;> rw [hcompile] at h <;> cases h
    cases compile_eq_error_iff.mp hcompile with
    | broken => exact Or.inr ⟨_, rfl⟩
    | _ => exact Or.inl ⟨_, rfl⟩

omit [Pattern.Engine] in
theorem lines_of_loadInput {files : Files} {source : InputSource} {fault : LoadFault}
    (h : loadInput files source = .error fault) : ∃ lines, fault.lines = .ok lines := by
  cases source with
  | text => cases h
  | file name =>
    rw [loadInput] at h
    rcases hbytes : files name with fault' | bytes <;> simp only [hbytes] at h
    · cases h
      exact ⟨_, rfl⟩
    · rcases hdecode : decodeInput bytes with fault' | text <;> rw [hdecode] at h <;> cases h
      exact ⟨_, rfl⟩

/-- A run on a grammar, told from the result of compiling. Only the reports of the stages come in
addition. -/
theorem withGrammar_eq (files : Files) (file : String) (debug : Bool)
    (run : Grammar → Except RunFault Output) :
    withGrammar files file debug run =
      match compileFile files file with
      | .error fault => fault.lines.map fun lines =>
          .failed (whenDebug debug (loadGrammar files file).1 ++ lines)
      | .ok g => (run g).map fun o =>
          { o with err := whenDebug debug (loadGrammar files file).1 ++ o.err } := by
  rw [← loadGrammar_snd, withGrammar]
  rcases loadGrammar files file with ⟨stages, fault | g⟩
  · cases fault.lines <;> rfl
  · cases run g <;> rfl

/-! ### Requests and their answers -/

/-- The file with the grammar of a request. -/
def Request.grammarFile : Request → String
  | .check file _ | .rules file _ _ | .matchText file _ _ _ _ _ _ => file

/-- Whether a request is one for reports of every stage. -/
def Request.debug : Request → Bool
  | .check _ debug | .rules _ _ debug | .matchText _ _ _ _ _ _ debug => debug

/-- The names of the grammar of a request break their enumeration, which is the one fault of
building that texts can have and no report is made of. -/
def Request.Breaks (files : Files) (request : Request) (fault : EnumerationFault) : Prop :=
  compileFile files request.grammarFile = .error (.grammar (.enumeration fault))

/-- Why a request cannot be carried out: its grammar, its text or its match. -/
inductive Request.Fails (files : Files) : Request → Prop
  /-- The file with the grammar cannot be read, is no text, or defines no grammar. -/
  | grammar {request : Request} {fault : LoadFault}
    (h : compileFile files request.grammarFile = .error fault) : Fails files request
  /-- The file with the text to match cannot be read, or is no text. -/
  | input {file rule : String} {source : InputSource} {maxDepth : Int} {full json debug : Bool}
    {fault : LoadFault} (h : loadInput files source = .error fault) :
    Fails files (.matchText file rule source maxDepth full json debug)
  /-- There is no result of the match: the limit admits no level, the rule is unknown, or the limit
  is exceeded. -/
  | matching {file rule text : String} {source : InputSource} {maxDepth : Int}
    {full json debug : Bool} {g : Grammar} {fault : MatchFault}
    (hgrammar : compileFile files file = .ok g) (htext : loadInput files source = .ok text)
    (h : g.matchRule rule text maxDepth = .error fault) :
    Fails files (.matchText file rule source maxDepth full json debug)

/-- The line for a rule in a list of all rules. -/
def ruleLine (r : Rule) : String :=
  match r.origin? with
  | none => r.name
  | some origin => "  " ++ r.name ++ "  (" ++ origin ++ ")"

/-- What an output shows of a grammar, or of the result of a match with it. -/
def Request.Shows (files : Files) (o : Output) : Request → Prop
  | .check file _ => ∀ g, compileFile files file = .ok g →
      o.exit = 0 ∧ ∃ start, g.start? = some start ∧ o.out =
        [s!"[CHECK OK] rules={g.topLevel.length} synthesized={g.lifted.length} start={start}"]
  | .rules file all _ => ∀ g, compileFile files file = .ok g →
      o.exit = 0 ∧ o.out = if all then g.rules.map ruleLine else g.topLevel
  | .matchText file rule source maxDepth full _ _ => ∀ g text r,
      compileFile files file = .ok g → loadInput files source = .ok text →
      g.matchRule rule text maxDepth = .ok r →
      (o.exit = 0 ↔ (if full then r.full else r.success) = true)

/-- An output answers a request: the exit status tells what came of the request, and what is shown
is true of the grammar and of the match. -/
structure Request.Answered (files : Files) (request : Request) (o : Output) : Prop where
  /-- The exit status is 2, and nothing is shown, where the request cannot be carried out. -/
  failed_iff : o.exit = 2 ∧ o.stdout = "" ↔ request.Fails files
  /-- Elsewhere it is 0 or 1. -/
  exit_eq_or : ¬request.Fails files → o.exit = 0 ∨ o.exit = 1
  /-- Then the standard error output has nothing but the reports of every stage. -/
  stderr_eq : ¬request.Fails files → request.debug = false → o.stderr = ""
  /-- What is shown is true of the grammar and of the match. -/
  shows : request.Shows files o

namespace Request

variable {files : Files} {request : Request}

/-- A report answers a request that fails, if what it shows is true of whatever there is. -/
theorem Fails.answered (h : request.Fails files) {err : List String}
    (hshows : request.Shows files (.failed err)) : request.Answered files (.failed err) where
  failed_iff := iff_of_true ⟨rfl, rfl⟩ h
  exit_eq_or := fun hfails => absurd h hfails
  stderr_eq := fun hfails => absurd h hfails
  shows := hshows

theorem answered_of_not_fails (h : ¬request.Fails files) {o : Output}
    (hexit : o.exit = 0 ∨ o.exit = 1) (herr : request.debug = false → o.err = [])
    (hshows : request.Shows files o) : request.Answered files o where
  failed_iff := iff_of_false (fun hfailed => by have := hfailed.1; omega) h
  exit_eq_or := fun _ => hexit
  stderr_eq := fun _ hdebug => by rw [Output.stderr, herr hdebug]; rfl
  shows := hshows

/-- Without a grammar nothing is shown. -/
theorem shows_of_error {fault : LoadFault} {o : Output}
    (h : compileFile files request.grammarFile = .error fault) : request.Shows files o := by
  have hnone (g : Grammar) (hg : compileFile files request.grammarFile = .ok g) : False := by
    rw [h] at hg
    cases hg
  cases request with
  | check => exact fun g hg => (hnone g hg).elim
  | rules => exact fun g hg => (hnone g hg).elim
  | matchText => exact fun g _ _ hg => (hnone g hg).elim

/-- With a grammar only a match can fail. -/
theorem Fails.exists_matchText {g : Grammar} (h : request.Fails files)
    (hg : compileFile files request.grammarFile = .ok g) :
    ∃ file rule source maxDepth full json debug,
      request = .matchText file rule source maxDepth full json debug := by
  cases h with
  | grammar h =>
    rw [hg] at h
    cases h
  | input => exact ⟨_, _, _, _, _, _, _, rfl⟩
  | matching => exact ⟨_, _, _, _, _, _, _, rfl⟩

/-- A match with a result does not fail. -/
theorem not_fails_of_matchRule {file rule text : String} {source : InputSource} {maxDepth : Int}
    {full json debug : Bool} {g : Grammar} {r : MatchResult}
    (hgrammar : compileFile files file = .ok g) (htext : loadInput files source = .ok text)
    (hmatch : g.matchRule rule text maxDepth = .ok r) :
    ¬(Request.matchText file rule source maxDepth full json debug).Fails files := by
  intro hfails
  cases hfails with
  | grammar h =>
    have hsame : compileFile files file = .error _ := h
    rw [hgrammar] at hsame
    cases hsame
  | input h =>
    rw [htext] at h
    cases h
  | matching hgrammar' htext' h =>
    rw [hgrammar] at hgrammar'
    rw [htext] at htext'
    cases hgrammar'
    cases htext'
    rw [hmatch] at h
    cases h

end Request

theorem ruleLine?_false (r : Rule) :
    ruleLine? false r = if r.isLifted then none else some r.name := by
  rw [ruleLine?, Rule.origin?, Rule.isLifted]
  cases r.owner <;> rfl

theorem ruleLine?_true (r : Rule) : ruleLine? true r = some (ruleLine r) := by
  rw [ruleLine?, ruleLine]
  cases r.origin? <;> rfl

/-- The names listed are those of the rules of statements, or there is a line for every rule. -/
theorem out_runRules (all : Bool) (g : Grammar) :
    (runRules all g).out = if all then g.rules.map ruleLine else g.topLevel := by
  cases all
  · change g.rules.filterMap (ruleLine? false) = g.topLevel
    rw [Grammar.topLevel]
    induction g.rules with
    | nil => rfl
    | cons r rest ih =>
      rw [List.filterMap_cons, ruleLine?_false, ih, List.filter_cons]
      cases r.isLifted <;> rfl
  · change g.rules.filterMap (ruleLine? true) = g.rules.map ruleLine
    rw [funext ruleLine?_true]
    exact congrFun List.filterMap_eq_map' g.rules

/-! ### Runs -/

section Run

variable {files : Files} {file : String} {g : Grammar}

theorem answered_check (hg : compileFile files file = .ok g) (debug : Bool) (stages : List String) :
    (Request.check file debug).Answered files
      { runCheck debug g with err := whenDebug debug stages ++ (runCheck debug g).err } := by
  refine Request.answered_of_not_fails (fun hfails => ?_) (Or.inl rfl) ?_ ?_
  · obtain ⟨_, _, _, _, _, _, _, ⟨⟩⟩ := hfails.exists_matchText hg
  · rintro ⟨⟩
    rfl
  · intro g' hg'
    obtain rfl : g = g' := Except.ok.inj (hg.symm.trans hg')
    obtain ⟨text, hcompile⟩ := compileFile_eq_ok hg
    obtain ⟨start, hstart⟩ := exists_start_of_compile hcompile
    refine ⟨rfl, start, hstart, ?_⟩
    rw [runCheck, hstart]
    rfl

theorem answered_rules (hg : compileFile files file = .ok g) (all debug : Bool)
    (stages : List String) :
    (Request.rules file all debug).Answered files
      { runRules all g with err := whenDebug debug stages ++ (runRules all g).err } := by
  refine Request.answered_of_not_fails (fun hfails => ?_) (Or.inl rfl) ?_ ?_
  · obtain ⟨_, _, _, _, _, _, _, ⟨⟩⟩ := hfails.exists_matchText hg
  · rintro ⟨⟩
    rfl
  · intro g' hg'
    obtain rfl : g = g' := Except.ok.inj (hg.symm.trans hg')
    exact ⟨rfl, out_runRules all g⟩

theorem exists_answered_of_matchRule (hg : compileFile files file = .ok g) {rule text : String}
    {source : InputSource} (hinput : loadInput files source = .ok text) {maxDepth : Int}
    {r : MatchResult} (hmatch : g.matchRule rule text maxDepth = .ok r) (full json debug : Bool)
    (stages : List String) :
    ∃ o, runMatch files rule source maxDepth full json debug g = .ok o ∧
      (Request.matchText file rule source maxDepth full json debug).Answered files
        { o with err := whenDebug debug stages ++ o.err } := by
  -- the run prints the result, whatever is reported besides
  have hrun : ∃ report, runMatch files rule source maxDepth full json debug g =
      .ok ⟨if (if full then r.full else r.success) then 0 else 1, resultLines rule json r,
        whenDebug debug report⟩ := by
    simp only [runMatch, hinput, hmatch]
    exact ⟨_, rfl⟩
  obtain ⟨report, hrun⟩ := hrun
  refine ⟨_, hrun, Request.answered_of_not_fails
    (Request.not_fails_of_matchRule hg hinput hmatch) ?_ ?_ ?_⟩
  · cases if full then r.full else r.success
    · exact Or.inr rfl
    · exact Or.inl rfl
  · rintro ⟨⟩
    rfl
  · intro g' text' r' hg' htext hmatch'
    -- the run and the answer are about the same grammar, text and result
    obtain rfl : g = g' := Except.ok.inj (hg.symm.trans hg')
    obtain rfl : text = text' := Except.ok.inj (hinput.symm.trans htext)
    obtain rfl : r = r' := Except.ok.inj (hmatch.symm.trans hmatch')
    cases if full then r.full else r.success
    · exact iff_of_false Nat.one_ne_zero Bool.false_ne_true
    · exact iff_of_true rfl rfl

theorem exists_answered_match (hg : compileFile files file = .ok g) (rule : String)
    (source : InputSource) (maxDepth : Int) (full json debug : Bool) (stages : List String) :
    ∃ o, runMatch files rule source maxDepth full json debug g = .ok o ∧
      (Request.matchText file rule source maxDepth full json debug).Answered files
        { o with err := whenDebug debug stages ++ o.err } := by
  -- without the input there is nothing to match
  rcases hinput : loadInput files source with fault | text
  · obtain ⟨lines, hlines⟩ := lines_of_loadInput hinput
    refine ⟨.failed lines, ?_, Request.Fails.answered (.input hinput) ?_⟩
    · simp only [runMatch, hinput, hlines]
      rfl
    · intro _ text _ _ htext
      rw [hinput] at htext
      cases htext
  rcases hmatch : g.matchRule rule text maxDepth with fault | r
  · obtain ⟨grammarText, hcompile⟩ := compileFile_eq_ok hg
    -- a rule that is referred to is there, in a grammar that compiles
    have hfault (missing : String) : fault ≠ .missingRule missing := by
      rintro rfl
      exact (consistsOf_of_compile hcompile).isResolved.matchWithin_ne_missingRule _ _ _ _
        missing hmatch
    obtain ⟨line, hline⟩ : ∃ line, matchFaultLine fault = .ok line := by
      cases fault with
      | missingRule name => exact absurd rfl (hfault name)
      | _ => exact ⟨_, rfl⟩
    refine ⟨.failed [line], ?_, Request.Fails.answered (.matching hg hinput hmatch) ?_⟩
    · simp only [runMatch, hinput, hmatch, hline]
      rfl
    · intro g' text' r hg' htext hmatch'
      obtain rfl : g = g' := Except.ok.inj (hg.symm.trans hg')
      obtain rfl : text = text' := Except.ok.inj (hinput.symm.trans htext)
      rw [hmatch] at hmatch'
      cases hmatch'
  · exact exists_answered_of_matchRule hg hinput hmatch full json debug stages

/-- A run answers the request, unless names break their enumeration. -/
theorem Request.exists_answered {request : Request} (h : ∀ fault, ¬request.Breaks files fault) :
    ∃ o, request.run files = .ok o ∧ request.Answered files o := by
  -- a fault of the grammar is reported
  have hfailed {fault : LoadFault} (hfault : compileFile files request.grammarFile = .error fault)
      (debug : Bool) (run : Grammar → Except RunFault Output) :
      ∃ o, withGrammar files request.grammarFile debug run = .ok o ∧ request.Answered files o := by
    obtain ⟨lines, hlines⟩ : ∃ lines, fault.lines = .ok lines :=
      (lines_of_compileFile hfault).resolve_right (by
        rintro ⟨broken, rfl⟩
        exact h broken hfault)
    refine ⟨.failed (whenDebug debug (loadGrammar files request.grammarFile).1 ++ lines), ?_,
      Request.Fails.answered (.grammar hfault) (Request.shows_of_error hfault)⟩
    rw [withGrammar_eq, hfault]
    dsimp only
    rw [hlines]
    rfl
  cases request with
  | check file debug =>
    rcases hg : compileFile files file with fault | g
    · exact hfailed hg debug _
    · refine ⟨_, ?_, answered_check hg debug (loadGrammar files file).1⟩
      rw [run, withGrammar_eq, hg]
      rfl
  | rules file all debug =>
    rcases hg : compileFile files file with fault | g
    · exact hfailed hg debug _
    · refine ⟨_, ?_, answered_rules hg all debug (loadGrammar files file).1⟩
      rw [run, withGrammar_eq, hg]
      rfl
  | matchText file rule source maxDepth full json debug =>
    rcases hg : compileFile files file with fault | g
    · exact hfailed hg debug _
    · obtain ⟨o, hrun, hanswered⟩ := exists_answered_match hg rule source maxDepth full json debug
        (loadGrammar files file).1
      refine ⟨_, ?_, hanswered⟩
      rw [run, withGrammar_eq, hg]
      dsimp only
      rw [hrun]
      rfl

/-- Every request is carried out on the grammar in its file. -/
theorem Request.exists_run_eq (files : Files) (request : Request) :
    ∃ run, request.run files = withGrammar files request.grammarFile request.debug run := by
  cases request <;> exact ⟨_, rfl⟩

/-- Names that break their enumeration end the run. -/
theorem Request.run_of_breaks {request : Request} {fault : EnumerationFault}
    (h : request.Breaks files fault) :
    request.run files = .error (.build (.enumeration fault)) := by
  obtain ⟨run, hrun⟩ := request.exists_run_eq files
  rw [Breaks] at h
  rw [hrun, withGrammar_eq, h]
  rfl

end Run

/-! ### Runs with the flag -/

/-- What a run shows apart from the standard error output. -/
def Output.shown (o : Output) : Nat × String := (o.exit, o.stdout)

theorem shown_withGrammar {files : Files} {file : String} {debug debug' : Bool}
    {run run' : Grammar → Except RunFault Output}
    (h : ∀ g, (run' g).map (·.shown) = (run g).map (·.shown)) :
    (withGrammar files file debug' run').map (·.shown) =
      (withGrammar files file debug run).map (·.shown) := by
  rw [withGrammar_eq, withGrammar_eq]
  rcases compileFile files file with fault | g
  · dsimp only
    cases fault.lines <;> rfl
  · have hg := h g
    dsimp only
    rcases hrun : run g with _ | o <;> rcases hrun' : run' g with _ | o' <;> rw [hrun, hrun'] at hg
    · exact hg
    · cases hg
    · cases hg
    · exact hg

/-- Reports of every stage change nothing else that a run shows. -/
theorem Request.shown_withDebug (files : Files) (request : Request) :
    (request.withDebug.run files).map (·.shown) = (request.run files).map (·.shown) := by
  cases request with
  | check file debug => exact shown_withGrammar fun g => rfl
  | rules file all debug => exact shown_withGrammar fun g => rfl
  | matchText file rule source maxDepth full json debug =>
    refine shown_withGrammar fun g => ?_
    unfold runMatch
    rcases loadInput files source with fault | text
    · rfl
    · dsimp only
      rcases g.matchRule rule text maxDepth with fault | r
      · cases fault <;> rfl
      · rfl

/-- **What the program does.**  On arguments that are accepted a run answers the request, unless the
names of the grammar break their enumeration, and then this fault ends the run.  The flag for
reports of every stage has a place among the arguments, and wherever it is accepted, the exit status
and the standard output remain the same, or the fault that ends the run. -/
theorem runArguments_spec (files : Files) {args : List String} {request : Request}
    (h : Request.ofArguments args = .ok request) :
    (∀ fault, request.Breaks files fault →
      runArguments files args = .ok (.error (.build (.enumeration fault)))) ∧
    ((∀ fault, ¬request.Breaks files fault) →
      ∃ o, runArguments files args = .ok (.ok o) ∧ request.Answered files o) ∧
    ∀ flag ∈ OptionKey.debug.names,
      (∃ before after, args = before ++ after ∧
        Request.ofArguments (before ++ flag :: after) = .ok request.withDebug) ∧
      ∀ before after request', args = before ++ after →
        Request.ofArguments (before ++ flag :: after) = .ok request' →
        (runArguments files (before ++ flag :: after)).map (·.map (·.shown)) =
          (runArguments files args).map (·.map (·.shown)) := by
  -- the three parts are the fault of an enumeration, the answer, and the flag
  refine ⟨fun fault hbreaks => ?_, fun hbreaks => ?_, fun flag hflag => ⟨?_, ?_⟩⟩
  · rw [runArguments, h]
    exact congrArg Except.ok (Request.run_of_breaks hbreaks)
  · obtain ⟨o, hrun, hanswered⟩ := Request.exists_answered hbreaks
    refine ⟨o, ?_, hanswered⟩
    rw [runArguments, h]
    exact congrArg Except.ok hrun
  · exact Request.exists_insert hflag h
  · rintro before after request' rfl h'
    obtain rfl := Request.eq_withDebug_of_insert hflag h h'
    rw [runArguments, runArguments, h, h']
    exact congrArg Except.ok (Request.shown_withDebug files request)

end CommandLine

end AnyEngine

namespace CommandLine

attribute [local instance] Pattern.Engine.verbatim

/-- The file `g` with the grammar of nested lists. -/
def listFiles : Files := fun name =>
  if name = "g" then .ok (listText.map fun c => c.toNat.toUInt8) else .error (.notFound name)

theorem compileFile_listFiles : compileFile listFiles "g" = .ok listGrammar := by
  have hread : readGrammarFile listFiles "g" = .ok listText := by cbv
  rw [compileFile, hread]
  exact congrArg (Except.mapError LoadFault.grammar) compile_listText

/-- The arguments that ask for a match of all of a text. -/
def listArguments : List String := ["match", "--text", "(x)y", "g", "L", "--full"]

theorem ofArguments_listArguments : Request.ofArguments listArguments =
    .ok (.matchText "g" "L" (.text "(x)y") defaultMaxDepth true false false) := by
  have hread : Command.readAll .matchText ["--text", "(x)y", "g", "L", "--full"] =
      .ok ⟨["g", "L"], ⟨some "(x)y", none, none, true, false, false, false, false⟩, []⟩ := by
    refine Command.readAll_eq_ok_iff.mpr ⟨_, rfl, ?_, Or.inr ⟨by decide, by decide⟩⟩
    rw [readArguments_option]
    change readArguments _ _ _ (("g", Shape.plain) :: _) = _
    rw [readArguments_plain, if_pos (by decide)]
    change readArguments _ _ _ (("L", Shape.plain) :: _) = _
    rw [readArguments_plain, if_pos (by decide)]
    change readArguments _ _ _ ((_, Shape.option _ _ _) :: _) = _
    rw [readArguments_option]
    change readArguments _ _ _ [] = _
    rw [readArguments]
    rfl
  exact Request.ofArguments_eq_ok_iff.mpr (.command rfl rfl rfl rfl hread rfl rfl)

theorem runArguments_spec_listFiles :
    ∃ o, runArguments listFiles listArguments = .ok (.ok o) ∧ o.exit = 1 ∧ o.stderr = "" ∧
      ∃ before after, listArguments = before ++ after ∧
        (runArguments listFiles (before ++ "-D" :: after)).map (·.map (·.shown)) =
          .ok (.ok (1, o.stdout)) := by
  have hmatch : listGrammar.matchRule "L" "(x)y" defaultMaxDepth =
      .ok ⟨true, "y", .node "L" "(x)" [.node "I" "x" []]⟩ := by
    cbv
  obtain ⟨-, hruns, hflag⟩ := runArguments_spec listFiles ofArguments_listArguments
  -- the grammar compiles, so nothing breaks
  have hbreaks (fault : EnumerationFault) : ¬Request.Breaks listFiles
      (.matchText "g" "L" (.text "(x)y") defaultMaxDepth true false false) fault := by
    intro hbreaks
    have hsame : compileFile listFiles "g" = .error _ := hbreaks
    rw [compileFile_listFiles] at hsame
    cases hsame
  obtain ⟨o, hrun, hanswered⟩ := hruns hbreaks
  -- the match is a success that leaves text, which is no success of the whole
  have hfails : ¬Request.Fails listFiles
      (.matchText "g" "L" (.text "(x)y") defaultMaxDepth true false false) :=
    Request.not_fails_of_matchRule compileFile_listFiles rfl hmatch
  have hexit : o.exit = 1 := (hanswered.exit_eq_or hfails).resolve_left fun hzero =>
    absurd ((hanswered.shows _ _ _ compileFile_listFiles rfl hmatch).mp hzero) (by decide)
  obtain ⟨⟨before, after, hinsert, haccepted⟩, hsame⟩ := hflag "-D" (by decide)
  refine ⟨o, hrun, hexit, hanswered.stderr_eq hfails rfl, before, after, hinsert, ?_⟩
  rw [hsame before after _ hinsert haccepted, hrun, ← hexit]
  rfl

end CommandLine
end Ebnf
