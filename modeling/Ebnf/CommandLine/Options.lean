import Ebnf.CommandLine.Integer
import Ebnf.Text.Quoted

/-!
# Options

A command takes arguments by position and options by name. An option may be shortened as long as
only one begins that way, its value may follow an equals sign or be the next argument, and options
of one letter may be joined. A double hyphen makes all arguments after it positional.

## Main definitions

* `OptionKey` — the options, with their names and whether they take values.
* `Command` — the commands, with their positional arguments and options.
* `UsageFault`, `UsageFault.message` — what can be wrong with arguments.
* `Shape`, `shapeAmong` — what an argument looks like where certain names are options.
* `Choices`, `Choices.set` — what has been chosen, and the effect of an option.
-/

namespace Ebnf.CommandLine

open Text (quote isDigit)

/-- The options of all commands. Each is one thing that can be chosen, whatever names it goes by. -/
inductive OptionKey where
  /-- Asks how the program is used. -/
  | help
  /-- Gives the text to match. -/
  | text
  /-- Gives the file with the text to match. -/
  | input
  /-- Limits the levels of a match. -/
  | maxDepth
  /-- Asks for all of the text to be matched. -/
  | full
  /-- Asks for JSON. -/
  | json
  /-- Asks for lifted rules too. -/
  | all
  /-- Asks for a report of every stage. -/
  | debug
  deriving DecidableEq, Repr

namespace OptionKey

/-- The names of an option, with the hyphens, in the order in which messages list them. -/
def names : OptionKey → List String
  | .help => ["-h", "--help"]
  | .text => ["--text"]
  | .input => ["--input"]
  | .maxDepth => ["--max-depth"]
  | .full => ["--full"]
  | .json => ["--json"]
  | .all => ["--all"]
  | .debug => ["-D", "--debug"]

/-- Whether an option takes a value, which is attached to its name or is the next argument. -/
def takesValue : OptionKey → Bool
  | .text | .input | .maxDepth => true
  | .help | .full | .json | .all | .debug => false

/-- The form in which messages name an option. -/
def title (key : OptionKey) : String := "/".intercalate key.names

end OptionKey

/-- The commands. The first argument that is no option names one of them. -/
inductive Command where
  /-- Compiles a grammar. -/
  | check
  /-- Lists the rules of a grammar. -/
  | rules
  /-- Matches a text against a rule. -/
  | matchText
  deriving DecidableEq, Repr

namespace Command

/-- The commands, in the order in which messages list them. -/
def all : List Command := [.check, .rules, .matchText]

/-- The name of a command. -/
def name : Command → String
  | .check => "check"
  | .rules => "rules"
  | .matchText => "match"

/-- The command of a name. Names of commands are never shortened, unlike those of options. -/
def ofName? (name : String) : Option Command := all.find? (·.name = name)

/-- The names of the positional arguments of a command. -/
def positionals : Command → List String
  | .check | .rules => ["file"]
  | .matchText => ["file", "rule"]

/-- The options of a command. Each command can be asked how it is used and to report every stage. -/
def options : Command → List OptionKey
  | .check => [.help, .debug]
  | .rules => [.help, .all, .debug]
  | .matchText => [.help, .text, .input, .maxDepth, .full, .json, .debug]

/-- The names of the options of a command, each with its option. -/
def optionNames (c : Command) : List (String × OptionKey) :=
  c.options.flatMap fun key => key.names.map (·, key)

end Command

/-- What can be wrong with arguments. The first fault found is reported, and no request is made. -/
inductive UsageFault where
  /-- Positional arguments are missing. -/
  | missing (names : List String)
  /-- There is no such command. -/
  | unknownCommand (name : String)
  /-- The value of an option is missing. -/
  | missingValue (key : OptionKey)
  /-- An option that takes no value has one. -/
  | needlessValue (key : OptionKey) (value : String)
  /-- The value of an option is no integer. -/
  | notInteger (key : OptionKey) (value : String)
  /-- Two options exclude each other. -/
  | excluded (key other : OptionKey)
  /-- One of several options is required. -/
  | noneOf (keys : List OptionKey)
  /-- A name is short for several options. -/
  | ambiguous (argument : String) (names : List String)
  /-- Arguments are left over. -/
  | unrecognized (arguments : List String)
  deriving DecidableEq, Repr

/-- The wording of a fault, without the name of the program that stands before it in the report. -/
def UsageFault.message : UsageFault → String
  | .missing names => "the following arguments are required: " ++ ", ".intercalate names
  | .unknownCommand name =>
    s!"argument cmd: invalid choice: {quote name} (choose from " ++
      ", ".intercalate (Command.all.map fun c => quote c.name) ++ ")"
  | .missingValue key => s!"argument {key.title}: expected one argument"
  | .needlessValue key value =>
    s!"argument {key.title}: ignored explicit argument {quote value}"
  | .notInteger key value => s!"argument {key.title}: invalid int value: {quote value}"
  | .excluded key other => s!"argument {key.title}: not allowed with argument {other.title}"
  | .noneOf keys =>
    "one of the arguments " ++ " ".intercalate (keys.map (·.title)) ++ " is required"
  | .ambiguous argument names =>
    s!"ambiguous option: {argument} could match " ++ ", ".intercalate names
  | .unrecognized arguments => "unrecognized arguments: " ++ " ".intercalate arguments

/-! ### The shapes of arguments -/

/-- A value that stands in the same argument as the name of its option. -/
structure Attached where
  /-- Whether an equals sign stands before the value. -/
  afterEquals : Bool
  /-- The value. -/
  value : String
  deriving DecidableEq, Repr

/-- What an argument looks like where certain names are options. Whether a plain argument is taken
by position or is the value of an option is decided only when the arguments are read. -/
inductive Shape where
  /-- A positional argument or a value. -/
  | plain
  /-- The double hyphen. -/
  | separator
  /-- The name of an option. `short` tells whether the name is a letter after one hyphen. -/
  | option (key : OptionKey) (short : Bool) (attached : Option Attached)
  /-- The name of no option. -/
  | stranger
  deriving DecidableEq, Repr

/-- Whether a text is a hyphen and a number, perhaps with a decimal point, which is no name. -/
def isNegativeNumber (text : List Char) : Bool :=
  match text with
  | '-' :: rest =>
    let number := if rest.getLast? = some '\n' then rest.dropLast else rest
    match number.dropWhile isDigit with
    | [] => !number.isEmpty
    | '.' :: decimals => !decimals.isEmpty && decimals.all isDigit
    | _ => false
  | _ => false

/-- The part of an argument before its first equals sign, and the value after it if there is one. -/
def cutEquals (argument : String) : String × Option Attached :=
  let cs := argument.toList
  match cs.dropWhile (· ≠ '=') with
  | [] => (argument, none)
  | _ :: value => (String.ofList (cs.takeWhile (· ≠ '=')), some ⟨true, String.ofList value⟩)

/-- Whether a name is a letter after one hyphen. -/
def isShort (name : String) : Bool := name.toList[1]? ≠ some '-'

/-- The options that an argument may mean when it is not the full name of one. -/
def candidates (names : List (String × OptionKey)) (argument : String) :
    List (String × OptionKey × Option Attached) :=
  if isShort argument then
    let letter := String.ofList (argument.toList.take 2)
    names.filterMap fun (name, key) =>
      if name = letter then
        some (name, key, some ⟨false, String.ofList (argument.toList.drop 2)⟩)
      else if argument.toList.isPrefixOf name.toList then some (name, key, none)
      else none
  else
    let (start, attached) := cutEquals argument
    names.filterMap fun (name, key) =>
      if start.toList.isPrefixOf name.toList then some (name, key, attached) else none

/-- What an argument looks like where the given names are options. -/
def shapeAmong (names : List (String × OptionKey)) (argument : String) :
    Except UsageFault Shape :=
  match argument.toList with
  | '-' :: _ :: _ =>
    let (start, attached) := cutEquals argument
    if argument = "--" then .ok .separator
    else
      match names.lookup argument, attached.bind fun _ => names.lookup start with
      | some key, _ => .ok (.option key (isShort argument) none)
      | none, some key => .ok (.option key (isShort start) attached)
      | none, none =>
        match candidates names argument with
        | [(name, key, attached)] => .ok (.option key (isShort name) attached)
        | [] =>
          -- what looks like a number, or has a space in it, is no option that is misspelt
          if isNegativeNumber argument.toList || argument.toList.contains ' ' then .ok .plain
          else .ok .stranger
        | several => .error (.ambiguous argument (several.map (·.1)))
  | _ => .ok .plain

/-- The arguments with their shapes. All arguments after the separator are plain. -/
def shapes (names : List (String × OptionKey)) :
    List String → Except UsageFault (List (String × Shape))
  | [] => .ok []
  | argument :: rest => do
    match ← shapeAmong names argument with
    | .separator => return (argument, .separator) :: rest.map (·, .plain)
    | shape => return (argument, shape) :: (← shapes names rest)

/-! ### Choices -/

/-- What the options have chosen so far. An option that is given again replaces its earlier value.
-/
structure Choices where
  /-- The text to match. -/
  text : Option String
  /-- The file with the text to match. -/
  input : Option String
  /-- The limit of levels. -/
  maxDepth : Option Int
  /-- Whether all of the text has to be matched. -/
  full : Bool
  /-- Whether to write JSON. -/
  json : Bool
  /-- Whether lifted rules are wanted too. -/
  all : Bool
  /-- Whether to report every stage. -/
  debug : Bool
  /-- Whether it was asked how the program is used. -/
  help : Bool
  deriving DecidableEq, Repr

namespace Choices

/-- Nothing has been chosen: all that may be left out is left out. -/
def none : Choices := ⟨.none, .none, .none, false, false, false, false, false⟩

/-- The effect of an option without value. Options that take one have no effect here. -/
def enable (c : Choices) : OptionKey → Choices
  | .full => { c with full := true }
  | .json => { c with json := true }
  | .all => { c with all := true }
  | .debug => { c with debug := true }
  | .help => { c with help := true }
  | .text | .input | .maxDepth => c

/-- The effect of an option with a value. The text to match is given only once, in a file or
directly. -/
def set (c : Choices) (key : OptionKey) (value : String) : Except UsageFault Choices :=
  match key with
  | .text =>
    if c.input.isSome then .error (.excluded .text .input) else .ok { c with text := some value }
  | .input =>
    if c.text.isSome then .error (.excluded .input .text) else .ok { c with input := some value }
  | .maxDepth =>
    match readInteger? value with
    | some limit => .ok { c with maxDepth := some limit }
    | .none => .error (.notInteger key value)
  | key => .ok (c.enable key)

end Choices

end Ebnf.CommandLine
