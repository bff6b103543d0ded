import Ebnf.CommandLine.Options
import Ebnf.Match

/-!
# Requests

The arguments of the program are read from left to right. Positional arguments are taken as they
come, options act where they stand, and what belongs to neither is left over. Only when nothing
else is wrong are left-over arguments reported.

## Main definitions

* `InputSource`, `Request` — what the program is asked to do.
* `Progress` — what has been read of the arguments of a command.
* `readOption`, `readArguments` — the reading of an option and of all arguments.
* `UsageReport`, `UsageReport.line` — a fault of the arguments and the line that reports it.
* `Refusal` — why arguments make no request.
* `Request.ofArguments` — the request that the arguments make.
-/

namespace Ebnf.CommandLine

/-- Where the text to match comes from. One of the two has to be chosen. -/
inductive InputSource where
  /-- It is given. -/
  | text (text : String)
  /-- It is in a file. -/
  | file (name : String)
  deriving DecidableEq, Repr

/-- What the program is asked to do, with all that was chosen or left to its default. -/
inductive Request where
  /-- To compile the grammar in a file. -/
  | check (file : String) (debug : Bool)
  /-- To list the rules of the grammar in a file, lifted ones too if `all` are wanted. -/
  | rules (file : String) (all debug : Bool)
  /-- To match a text against a rule of the grammar in a file. -/
  | matchText (file rule : String) (source : InputSource) (maxDepth : Int)
      (full json debug : Bool)
  deriving DecidableEq, Repr

/-- What has been read of the arguments of a command. -/
structure Progress where
  /-- The positional arguments, in order. -/
  values : List String
  /-- What the options have chosen. -/
  choices : Choices
  /-- The arguments left over. -/
  extras : List String
  deriving DecidableEq, Repr

/-- Nothing has been read of the arguments, and nothing is chosen. -/
def Progress.start : Progress := ⟨[], .none, []⟩

/-! ### Options -/

/-- Reads letters joined to an option without value. A letter that is no option is left over with
those after it. -/
def readLetters (names : List (String × OptionKey)) (p : Progress) (key : OptionKey) :
    Attached → List Char → Except UsageFault Progress
  | attached, [] => .error (.needlessValue key attached.value)
  | attached, letter :: rest =>
    if attached.afterEquals ∨ letter = '-' then .error (.needlessValue key attached.value)
    else
      let p := { p with choices := p.choices.enable key }
      match names.lookup (String.ofList ['-', letter]), rest with
      | none, _ => .ok { p with extras := p.extras ++ ["-" ++ attached.value] }
      | some key, [] => .ok { p with choices := p.choices.enable key }
      | some key, '=' :: more =>
        .error (.needlessValue key (String.ofList more))
      | some key, more => readLetters names p key ⟨false, String.ofList more⟩ more

/-- Reads an option; `rest` are the arguments after it, of which it may take the next one. -/
def readOption (names : List (String × OptionKey)) (p : Progress) (key : OptionKey) (short : Bool)
    (attached : Option Attached) (rest : List (String × Shape)) :
    Except UsageFault (Progress × { r : List (String × Shape) // r.length ≤ rest.length }) :=
  if key.takesValue then
    match attached, rest with
    | some a, rest => do
      return ({ p with choices := ← p.choices.set key a.value }, ⟨rest, Nat.le_refl _⟩)
    | none, (value, .plain) :: rest => do
      return ({ p with choices := ← p.choices.set key value }, ⟨rest, Nat.le_succ _⟩)
    | none, _ => throw (.missingValue key)
  else
    match attached with
    | none => .ok ({ p with choices := p.choices.enable key }, ⟨rest, Nat.le_refl _⟩)
    | some a =>
      if short then do return (← readLetters names p key a a.value.toList, ⟨rest, Nat.le_refl _⟩)
      else .error (.needlessValue key a.value)

/-! ### Arguments -/

/-- The arguments after a separator that may stand first. -/
def skipSeparator : List (String × Shape) → List (String × Shape)
  | (_, .separator) :: rest => rest
  | args => args

theorem length_skipSeparator_le (args : List (String × Shape)) :
    (skipSeparator args).length ≤ args.length := by
  unfold skipSeparator
  split
  · exact Nat.le_succ _
  · exact Nat.le_refl _

/-- Reads the arguments of a command that takes `wanted` positional ones. A separator goes with the
positional argument beside it. -/
def readArguments (names : List (String × OptionKey)) (wanted : Nat) (p : Progress)
    (args : List (String × Shape)) : Except UsageFault Progress :=
  match args with
  | [] => .ok p
  | (_, .option key short attached) :: rest => do
    let (p, r) ← readOption names p key short attached rest
    -- nothing is read any more once it is asked how the command is used
    if p.choices.help then return p
    readArguments names wanted p r.1
  | (argument, .stranger) :: rest =>
    readArguments names wanted { p with extras := p.extras ++ [argument] } rest
  | (argument, .separator) :: rest =>
    match rest with
    -- a separator counts as read only along with a positional argument that is wanted
    | (value, .plain) :: rest' =>
      if p.values.length < wanted then
        readArguments names wanted { p with values := p.values ++ [value] } rest'
      else
        readArguments names wanted { p with extras := p.extras ++ [argument] }
          ((value, .plain) :: rest')
    | rest => readArguments names wanted { p with extras := p.extras ++ [argument] } rest
  | (argument, .plain) :: rest =>
    if p.values.length < wanted then
      readArguments names wanted { p with values := p.values ++ [argument] } (skipSeparator rest)
    else readArguments names wanted { p with extras := p.extras ++ [argument] } rest
termination_by args.length
decreasing_by
  · exact Nat.lt_succ_of_le r.2
  · simp
  · simp only [List.length_cons]; omega
  · simp
  · simp
  · exact Nat.lt_succ_of_le (length_skipSeparator_le rest)
  · simp

/-- A fault of the arguments, and the command whose arguments they are if the fault is there. -/
structure UsageReport where
  /-- The command. -/
  command : Option Command
  /-- What is wrong. -/
  fault : UsageFault
  deriving DecidableEq, Repr

/-- The line that reports a fault of the arguments, after the name of the program and of the
command. -/
def UsageReport.line (r : UsageReport) : String :=
  let place := match r.command with
    | some c => "ebnfc " ++ c.name
    | none => "ebnfc"
  place ++ ": error: " ++ r.fault.message

/-- Why arguments make no request. -/
inductive Refusal where
  /-- It is asked how the program is used, or one of its commands. The answer is a text about the
  options, which is not fixed here. -/
  | help (command : Option Command)
  /-- Something is wrong with the arguments. -/
  | fault (report : UsageReport)
  deriving DecidableEq, Repr

/-- What has been read of the arguments of a command, if all that it needs is there. -/
def Command.readAll (c : Command) (args : List String) : Except UsageFault Progress := do
  let shaped ← shapes c.optionNames args
  let p ← readArguments c.optionNames c.positionals.length .start shaped
  if p.choices.help then return p
  match c.positionals.drop p.values.length with
  | [] => pure ()
  | names => throw (.missing names)
  if c = .matchText ∧ p.choices.text = none ∧ p.choices.input = none then
    throw (.noneOf [.text, .input])
  return p

/-- The request of a command with what has been read of its arguments. -/
def Command.request (c : Command) (p : Progress) : Request :=
  let file := (p.values[0]?).getD ""
  let rule := (p.values[1]?).getD ""
  let chosen := p.choices
  match c with
  | .check => .check file chosen.debug
  | .rules => .rules file chosen.all chosen.debug
  | .matchText =>
    let source := match chosen.text with
      | some text => .text text
      | none => .file (chosen.input.getD "")
    .matchText file rule source (chosen.maxDepth.getD defaultMaxDepth) chosen.full chosen.json
      chosen.debug

/-- The options that may stand before the command: only the one that asks how the program is used.
-/
def globalOptions : List (String × OptionKey) := OptionKey.help.names.map (·, .help)

/-- The command among arguments with shapes, the arguments after it, and those before it that are
left over. The command is the first argument that is no option; even a separator counts, if an
argument follows. -/
def findCommand : List (String × Shape) → Option (String × List String) × List String
  | [] => (none, [])
  | (argument, .stranger) :: rest =>
    let (found, extras) := findCommand rest
    (found, argument :: extras)
  | [(argument, .separator)] => (none, [argument])
  | (argument, _) :: rest => (some (argument, rest.map (·.1)), [])

/-- Whether the program is asked how it is used before any command. No other option stands there,
and it takes no value, so that one joined to it is a fault. -/
def asksUsage (shaped : List (String × Shape)) : Except UsageFault Bool :=
  match shaped.find? (·.2 ≠ .stranger) with
  | some (_, .option key short attached) =>
    (readOption globalOptions .start key short attached []).map fun _ => true
  | _ => .ok false

/-- The request that the arguments of the program make. -/
def Request.ofArguments (args : List String) : Except Refusal Request := do
  let whole := fun fault => Refusal.fault (UsageReport.mk none fault)
  let shaped ← (shapes globalOptions args).mapError whole
  if ← (asksUsage shaped).mapError whole then throw (.help none)
  match findCommand shaped with
  | (none, _) => throw (whole (.missing ["cmd"]))
  | (some (name, rest), extras) =>
    match Command.ofName? name with
    | none => throw (whole (.unknownCommand name))
    | some c =>
      let p ← (c.readAll rest).mapError fun fault => Refusal.fault (UsageReport.mk (some c) fault)
      if p.choices.help then throw (.help (some c))
      match extras ++ p.extras with
      | [] => return c.request p
      | extras => throw (whole (.unrecognized extras))

end Ebnf.CommandLine
