import Ebnf.CommandLine.Run

/-!
# The program

Reads the files that a request names, carries the request out, and writes the output. An executable
supplies the engine for patterns and the texts about the options.

## What is left out

Of a fault that ends the run only the last line is written, without the trace before it. Running
out of memory, and of the stack while a grammar is built, is not represented; for a match the stack
is the number of applications that may be open. There are no threads: a grammar never changes, and
a match depends on nothing else.
-/

namespace Ebnf.CommandLine

/-- The files that a request names. -/
def Request.fileNames : Request → List String
  | .check file _ | .rules file _ _ => [simplifyPath file]
  | .matchText file _ (.text _) _ _ _ _ => [simplifyPath file]
  | .matchText file _ (.file input) _ _ _ _ => [simplifyPath file, input]

/-- The kind of an error of the operating system with a number. -/
def FileFault.kindOfNumber : Nat → String
  | 1 | 13 => "PermissionError"
  | 2 => "FileNotFoundError"
  | 3 => "ProcessLookupError"
  | 4 => "InterruptedError"
  | 10 => "ChildProcessError"
  | 11 | 114 | 115 => "BlockingIOError"
  | 17 => "FileExistsError"
  | 20 => "NotADirectoryError"
  | 21 => "IsADirectoryError"
  | 32 | 108 => "BrokenPipeError"
  | 103 => "ConnectionAbortedError"
  | 104 => "ConnectionResetError"
  | 110 => "TimeoutError"
  | 111 => "ConnectionRefusedError"
  | _ => "OSError"

/-- An error of the operating system at the file of the given name. -/
def FileFault.ofError (name : String) : IO.Error → FileFault
  | .noFileOrDirectory _ number details | .permissionDenied _ number details
  | .inappropriateType _ number details | .interrupted _ number details
  | .resourceExhausted _ number details | .invalidArgument _ number details
  | .noSuchThing _ number details | .alreadyExists _ number details
  | .illegalOperation number details | .hardwareFault number details
  | .unsupportedOperation number details | .resourceBusy number details
  | .timeExpired number details | .otherError number details =>
    .ofNumber (kindOfNumber number.toNat) number.toNat details name
  | fault => ⟨"OSError", toString fault⟩

/-- What the file system tells of a file. -/
def readFile (name : String) : IO (Except FileFault (List UInt8)) := do
  try
    return .ok (← IO.FS.readBinFile name).toList
  catch fault => return .error (.ofError name fault)

/-- The texts about the options of the program and of its commands. -/
structure OptionTexts where
  /-- What is written before the report of a fault of the arguments. -/
  usage : Option Command → String
  /-- What is written if it is asked how the program is used. -/
  help : Option Command → String

variable [Pattern.Engine]

/-- Runs the program. -/
def main (texts : OptionTexts) (args : List String) : IO UInt32 := do
  match Request.ofArguments args with
  | .error (.help command) =>
    (← IO.getStdout).putStr (texts.help command)
    return 0
  | .error (.fault report) =>
    (← IO.getStderr).putStr (texts.usage report.command ++ unlines [report.line])
    return 2
  | .ok request =>
    let contents ← request.fileNames.mapM fun name => do return (name, ← readFile name)
    match request.run fun name => (contents.lookup name).getD (.error (.notFound name)) with
    | .error fault =>
      (← IO.getStderr).putStr (unlines [fault.line])
      return 1
    | .ok output =>
      (← IO.getStdout).putStr output.stdout
      (← IO.getStderr).putStr output.stderr
      return output.exit.toUInt32

end Ebnf.CommandLine
