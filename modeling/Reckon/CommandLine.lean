import Reckon.Console

/-!
# The command line

The program takes options and at most one file.  With a file it deals with the
forms of the file and writes to standard output; without one it holds a
dialogue, and everything, the output of running programs included, goes to
standard error in order.
-/

namespace Reckon.CommandLine

/-- What is wrong with the arguments. -/
inductive UsageError where
  /-- An option lacks its level. -/
  | missingLevel (option : String)
  /-- A level is not one. -/
  | unknownLevel (text : String)
  /-- An option is not one. -/
  | unknownOption (option : String)
  /-- Something follows the file. -/
  | extraArgument
deriving Repr, DecidableEq

/-- The text of a usage error. -/
def UsageError.message : UsageError → String
  | missingLevel option => s!"Missing optimization level after {option}"
  | unknownLevel text => OptimizationLevel.unknownText text
  | unknownOption option => s!"Unknown option '{option}'"
  | extraArgument => "Only one input file is supported"

/-- What the arguments ask for. -/
structure Invocation where
  /-- The options. -/
  options : Options
  /-- The file, if there is one. -/
  path? : Option String
deriving Repr, DecidableEq

/-- Read arguments.  The file has to be the last of them. -/
def parse (options : Options) : List String → Except UsageError Invocation
  | [] => .ok ⟨options, none⟩
  | arg :: args =>
    if arg = "--opt-level" ∨ arg = "-O" then
      match args with
      | [] => .error (.missingLevel arg)
      | level :: args =>
        match OptimizationLevel.ofText? level with
        | some level => parse { options with level := level } args
        | none => .error (.unknownLevel level)
    else if arg = "--dump-ir" then parse { options with showCode := true } args
    else if arg = "--no-dump-ir" then parse { options with showCode := false } args
    else if arg.toList.head? = some '-' then .error (.unknownOption arg)
    else if args.isEmpty then .ok ⟨options, some arg⟩
    else .error .extraArgument

/-- Why a file cannot be read. -/
inductive FileError where
  /-- There is no such file. -/
  | missing
  /-- The file is not UTF-8. -/
  | notText
  /-- Any other reason, in the words of the system. -/
  | other (text : String)
deriving Repr, DecidableEq

/-- The text of a file error. -/
def FileError.message : FileError → String
  | missing => "No such file or directory (os error 2)"
  | notText => "stream did not contain valid UTF-8"
  | other text => text

/-- How the program ends. -/
structure Exit where
  /-- The exit code. -/
  code : Nat
  /-- What was written to standard output. -/
  stdout : String
  /-- What was written to standard error. -/
  stderr : String
deriving Repr, DecidableEq

/-- The last words of the program: what failed, and why. -/
def failureText (message : String) : Option String → String
  | none => s!"Error: {message}\n"
  | some cause => s!"Error: {message}\n\nCaused by:\n    {cause}\n"

/-- What is written last after a dialogue. -/
def lastWords (fatal? : Option FormError) : String :=
  match fatal? with
  | none => ""
  | some e => failureText Console.fatalText (some e.message)

/-- The exit code after a dialogue. -/
def exitCode (fatal? : Option FormError) : Nat := if fatal?.isSome then 1 else 0

/-- The text of a file. -/
def textOf (contents : Except FileError (List UInt8)) : Except FileError (List Char) :=
  match contents with
  | .error e => .error e
  | .ok bytes =>
    match Text.decode bytes with
    | some text => .ok text
    | none => .error .notText

/-- Deal with a file. -/
def runFile (limit : Nat) (options : Options) (path : String)
    (contents : Except FileError (List UInt8)) : Exit :=
  match textOf contents with
  | .error e => ⟨1, "", failureText s!"Reading {path}" (some e.message)⟩
  | .ok text =>
    let dialogue := Console.run (.start options) limit false text
    ⟨exitCode dialogue.fatal?, Chunk.everything dialogue.chunks, lastWords dialogue.fatal?⟩

/-- Hold a dialogue over all of standard input. -/
def runTerminal (limit : Nat) (options : Options) (input : List UInt8) : Exit :=
  let dialogue := Console.run (.start options) limit true (Text.lineChars input)
  ⟨exitCode dialogue.fatal?, "",
    Chunk.everything dialogue.chunks ++ lastWords dialogue.fatal?⟩

/-- The program: what it writes and how it ends, given its arguments, the files
and standard input. -/
def run (limit : Nat) (args : List String)
    (files : String → Except FileError (List UInt8)) (input : List UInt8) : Exit :=
  match parse .standard args with
  | .error e => ⟨1, "", failureText e.message none⟩
  | .ok ⟨options, some path⟩ => runFile limit options path (files path)
  | .ok ⟨options, none⟩ => runTerminal limit options input

end Reckon.CommandLine
