import Reckon.CommandLine

/-!
# The program

What the program does is decided by `CommandLine`.  Here its arguments and
files are fetched and its text is written.  At a terminal every form is
answered as soon as the tokens that have arrived settle it, so the dialogue is
carried on line by line.
-/

namespace Reckon.Terminal

/-- The greatest number of steps that an expression may take. -/
def stepLimit : Nat := 1 <<< 62

/-- The bytes of the next line, with its line end; none at the end of the
input. -/
partial def readLine (input : IO.FS.Stream) (line : Array UInt8) : IO (List UInt8) := do
  let next ← input.read 1
  match next.data[0]? with
  | none => return line.toList
  | some byte =>
    if byte = 10 then return (line.push byte).toList
    else readLine input (line.push byte)

/-- Write pieces of a dialogue at once. -/
def write (output : IO.FS.Stream) (chunks : List Chunk) : IO Unit := do
  output.putStr (Chunk.everything chunks)
  output.flush

/-- Write the last words after a dialogue.  The result is the exit code. -/
def leave (output : IO.FS.Stream) (fatal? : Option FormError) : IO UInt32 := do
  output.putStr (CommandLine.lastWords fatal?)
  output.flush
  return (CommandLine.exitCode fatal?).toUInt32

/-- Carry on a dialogue: take the turns that are settled, and then read another
line.  At the end of the input the rest is dealt with as it stands. -/
partial def converse (input output : IO.FS.Stream) (s : Session) (ts : Tokens) :
    IO UInt32 := do
  if hne : ts.pending = [] then await s ts
  else if Console.isSettled s ts then
    let answer := Console.turn s stepLimit true ts hne
    write output answer.chunks
    match answer.fatal? with
    | some e => leave output (some e)
    | none => converse input output answer.session answer.rest
  else await s ts
where
  await (s : Session) (ts : Tokens) : IO UInt32 := do
    let text := Text.lineChars (← readLine input #[])
    if text.isEmpty then
      let dialogue := Console.converse s stepLimit true ts
      write output dialogue.chunks
      leave output dialogue.fatal?
    else
      let more := Cursor.tokens ⟨.ofSpan ts.finish, text⟩
      converse input output s { more with pending := ts.pending ++ more.pending }

/-- Read a file. -/
def readFile (path : String) : IO (Except CommandLine.FileError (List UInt8)) := do
  try
    return .ok (← IO.FS.readBinFile path).toList
  catch
    | .noFileOrDirectory _ _ _ => return .error .missing
    | .inappropriateType _ code details => return .error (.other s!"{details} (os error {code})")
    | .permissionDenied _ code details => return .error (.other s!"{details} (os error {code})")
    | e => return .error (.other (toString e))

end Reckon.Terminal

open Reckon in
/-- Run the program. -/
def main (args : List String) : IO UInt32 := do
  let stdout ← IO.getStdout
  let stderr ← IO.getStderr
  match CommandLine.parse .standard args with
  | .error e =>
    stderr.putStr (CommandLine.failureText e.message none)
    return 1
  | .ok ⟨options, some path⟩ =>
    let exit := CommandLine.runFile Terminal.stepLimit options path (← Terminal.readFile path)
    stdout.putStr exit.stdout
    stderr.putStr exit.stderr
    return exit.code.toUInt32
  | .ok ⟨options, none⟩ =>
    Terminal.write stderr (Console.promptChunks true)
    Terminal.converse (← IO.getStdin) stderr (.start options) (.ofChars [])
