import Ebnf.CommandLine.Request
import Ebnf.Compile
import Ebnf.Json

/-!
# Running requests

A request is carried out on the files that it names. The result is written to the standard output,
and what is wrong, or what was done if the stages are to be reported, to the standard error output.
The exit status is 0 for success, 1 if a text does not match, and 2 if something is wrong. Of the
faults of building only those of the grammar are reported in this way; others end the run, and so
does a rule that is missing in a match.

## Main definitions

* `FileFault`, `Files` — files, as far as they can be read.
* `RunFault` — a fault that ends the run.
* `LoadFault`, `LoadFault.lines` — why there is no grammar or no text, and the report of it.
* `loadGrammar`, `loadInput` — the grammar and the text in a file.
* `Output` — what a run writes, and its exit status.
* `Request.run`, `runArguments` — the run of a request and of the program.
-/

namespace Ebnf.CommandLine

open Text (quote)

variable [Pattern.Engine]

/-! ### Files -/

/-- Why a file cannot be read: any error of the operating system, by the name of its kind and its
text. Only these two are reported, so nothing else is kept of it. -/
structure FileFault where
  /-- The name of the kind of error. -/
  kind : String
  /-- The text of the error. -/
  text : String
  deriving DecidableEq, Repr

namespace FileFault

/-- The error with a number and a description, at the file of the given name. -/
def ofNumber (kind : String) (number : Nat) (description name : String) : FileFault :=
  ⟨kind, s!"[Errno {number}] {description}: " ++ quote name⟩

/-- There is no file of the name. -/
def notFound (name : String) : FileFault :=
  ofNumber "FileNotFoundError" 2 "No such file or directory" name

/-- The report of the error: its kind and its text. -/
def message (fault : FileFault) : String := fault.kind ++ " " ++ fault.text

end FileFault

/-- The bytes of the files by their names. -/
abbrev Files := String → Except FileFault (List UInt8)

/-- The pieces of a path between its slashes. -/
def pathPieces : List Char → List (List Char)
  | [] => [[]]
  | c :: rest =>
    match pathPieces rest with
    | [] => [[]]
    | piece :: pieces => if c = '/' then [] :: piece :: pieces else (c :: piece) :: pieces

/-- The root with which a path begins. Exactly two slashes are kept apart from one. -/
def pathRoot (path : List Char) : List Char :=
  match (path.takeWhile (· = '/')).length with
  | 0 => []
  | 2 => ['/', '/']
  | _ => ['/']

/-- A path without repeated slashes and steps to the same directory. -/
def simplifyPath (path : String) : String :=
  let pieces := (pathPieces path.toList).filter fun piece => !piece.isEmpty && piece ≠ ['.']
  let simple := pathRoot path.toList ++ ['/'].intercalate pieces
  if simple.isEmpty then "." else String.ofList simple

/-! ### Loading -/

/-- A fault that is not reported: it ends the run. -/
inductive RunFault where
  /-- A fault of building that is none of the grammar. -/
  | build (fault : BuildFault)
  /-- A rule to which another one refers does not exist. -/
  | missingRule (name : String)
  deriving DecidableEq, Repr

/-- The last line of the report of a fault that ends the run. -/
def RunFault.line : RunFault → String
  | .build fault => fault.kindName ++ ": " ++ fault.message
  | .missingRule name => "KeyError: " ++ quote name

/-- Why a file yields no grammar or no text. -/
inductive LoadFault where
  /-- The file cannot be read. -/
  | file (fault : FileFault)
  /-- Its bytes are no text. -/
  | encoding (fault : Text.Utf8.Fault)
  /-- The text is no grammar. -/
  | grammar (fault : BuildFault)
  deriving DecidableEq, Repr

/-- The lines that report a fault, unless it is one that ends the run. -/
def LoadFault.lines : LoadFault → Except RunFault (List String)
  | .file fault => .ok ["[ERROR] " ++ fault.message]
  | .encoding fault => .ok ["[ERROR] UnicodeDecodeError " ++ fault.message]
  | .grammar (.grammar fault) => .ok ["[SYNTAX ERROR] " ++ fault.cause.kind.name, fault.message]
  | .grammar fault => .error (.build fault)

/-- The text of a grammar file. The path is simplified first, so that a report names the simplified
one. -/
def readGrammarFile (files : Files) (file : String) : Except LoadFault (List Char) :=
  match files (simplifyPath file) with
  | .error fault => .error (.file fault)
  | .ok bytes => (decodeGrammar bytes).mapError .encoding

/-- The grammar in a file, and the lines that report the stages that were reached. -/
def loadGrammar (files : Files) (file : String) : List String × Except LoadFault Grammar :=
  match readGrammarFile files file with
  | .error fault => ([], .error fault)
  | .ok text =>
    let loaded := s!"[DEBUG] loaded {file} | chars={text.length}"
    match Source.readStatements text with
    | .error fault => ([loaded], .error (.grammar (.grammar (.ofText fault))))
    | .ok statements =>
      match Build.statements statements with
      | .error fault => ([loaded], .error (.grammar fault))
      | .ok b =>
        let parsed := s!"[DEBUG] statements parsed | statements={statements.length}"
        match b.freeze with
        | .error fault => ([loaded, parsed], .error (.grammar fault))
        | .ok g =>
          let frozen := s!"[DEBUG] grammar frozen | rules={g.topLevel.length} " ++
            s!"synthesized={g.lifted.length}"
          ([loaded, parsed, frozen], .ok g)

/-- The text to match, as it is given or as a file has it. The path of that file is used as it
stands. -/
def loadInput (files : Files) : InputSource → Except LoadFault String
  | .text text => .ok text
  | .file name =>
    match files name with
    | .error fault => .error (.file fault)
    | .ok bytes => ((decodeInput bytes).mapError .encoding).map String.ofList

/-! ### Running -/

/-- What a run writes, and its exit status. -/
structure Output where
  /-- The exit status. -/
  exit : Nat
  /-- The lines on the standard output. -/
  out : List String
  /-- The lines on the standard error output. -/
  err : List String
  deriving DecidableEq, Repr

/-- Lines as a text, each with its end. -/
def unlines (lines : List String) : String := String.join (lines.map (· ++ "\n"))

/-- The text on the standard output. -/
def Output.stdout (o : Output) : String := unlines o.out

/-- The text on the standard error output. -/
def Output.stderr (o : Output) : String := unlines o.err

/-- The output of a run in which something is wrong: nothing on the standard output, and exit status
2. -/
def Output.failed (err : List String) : Output := ⟨2, [], err⟩

/-- The lines if the stages are to be reported. -/
def whenDebug (debug : Bool) (lines : List String) : List String := if debug then lines else []

/-- The output of a run on the grammar in a file. The lines given with the result of `run` come
after those of the stages. -/
def withGrammar (files : Files) (file : String) (debug : Bool)
    (run : Grammar → Except RunFault Output) : Except RunFault Output := do
  match loadGrammar files file with
  | (stages, .error fault) => return .failed (whenDebug debug stages ++ (← fault.lines))
  | (stages, .ok g) =>
    let o ← run g
    return { o with err := whenDebug debug stages ++ o.err }

/-- Checks a grammar that compiles: the numbers of its rules and the rule it starts with, and with
reports of every stage its description as well. -/
def runCheck (debug : Bool) (g : Grammar) : Output :=
  ⟨0,
    [s!"[CHECK OK] rules={g.topLevel.length} synthesized={g.lifted.length} start=" ++
      g.start?.getD ""],
    whenDebug debug ["\n[Rules]", g.describe]⟩

/-- The line for a rule in a list of rules, if the rule is wanted. -/
def ruleLine? (all : Bool) (r : Rule) : Option String :=
  match r.origin? with
  | none => some r.name
  | some origin => if all then some ("  " ++ r.name ++ "  (" ++ origin ++ ")") else none

/-- Lists the rules of a grammar in order, one on a line. -/
def runRules (all : Bool) (g : Grammar) : Output := ⟨0, g.rules.filterMap (ruleLine? all), []⟩

/-- The line that reports a fault of a match, unless it is one that ends the run. -/
def matchFaultLine (fault : MatchFault) : Except RunFault String :=
  let line := fun kind => Except.ok ("[ERROR] " ++ kind ++ " " ++ fault.message)
  match fault with
  | .badLimit _ => line "ValueError"
  | .unknownRule _ => line "UnknownRule"
  | .tooDeep _ _ => line "RecursionLimitExceeded"
  | .missingRule name => .error (.missingRule name)

/-- The lines that show the result of a match. -/
def resultLines (rule : String) (json : Bool) (r : MatchResult) : List String :=
  if json then [r.toJson.render]
  else if r.success then
    [s!"[MATCH OK] rule={rule} remainder={quote r.remainder}", r.tree.pretty Tree.defaultIndent]
  else [s!"[NO MATCH] rule={rule}"]

/-- Matches a text against a rule of a grammar. The result is written to the standard output whether
the match succeeds or not; the exit status is 1 if it fails or, where all of the text is wanted,
leaves something. -/
def runMatch (files : Files) (rule : String) (source : InputSource) (maxDepth : Int)
    (full json debug : Bool) (g : Grammar) : Except RunFault Output := do
  match loadInput files source with
  | .error fault => return .failed (← fault.lines)
  | .ok text =>
    match g.matchRule rule text maxDepth with
    | .error fault => return .failed [← matchFaultLine fault]
    | .ok r =>
      -- what was taken is told from what is left, as a failed match leaves all of it
      let consumed := text.length - r.remainder.length
      let matched := if full then r.full else r.success
      return ⟨if matched then 0 else 1, resultLines rule json r,
        whenDebug debug [s!"[DEBUG] rule={rule} input={text.length} consumed={consumed}"]⟩

/-- Carries out a request. Every request begins with the grammar, and without one nothing else is
done. -/
def Request.run (files : Files) : Request → Except RunFault Output
  | .check file debug => withGrammar files file debug fun g => .ok (runCheck debug g)
  | .rules file all debug => withGrammar files file debug fun g => .ok (runRules all g)
  | .matchText file rule source maxDepth full json debug =>
    withGrammar files file debug (runMatch files rule source maxDepth full json debug)

/-- Runs the program with arguments on files. Arguments that are refused touch no file. -/
def runArguments (files : Files) (args : List String) :
    Except Refusal (Except RunFault Output) :=
  (Request.ofArguments args).map (·.run files)

end Ebnf.CommandLine
