/-!
# Text that arrives line by line

Terminal input is read one line at a time.  A line counts without its line
feed and without one carriage return before that, and it is handed on with a
line feed of its own, also when the input ends without one.  Input ends at the
first line that is not UTF-8.
-/

namespace Reckon.Text

/-- A line of input. -/
structure Line where
  /-- The bytes up to the line feed. -/
  bytes : List UInt8
  /-- Whether a line feed followed. -/
  terminated : Bool
deriving Repr, DecidableEq

/-- Cut input after every line feed. -/
def splitLines : List UInt8 → List Line
  | [] => []
  | b :: rest =>
    if b = 10 then ⟨[], true⟩ :: splitLines rest
    else
      match splitLines rest with
      | [] => [⟨[b], false⟩]
      | line :: lines => ⟨b :: line.bytes, line.terminated⟩ :: lines

/-- The bytes of a line without the carriage return of its line end. -/
def Line.content (line : Line) : List UInt8 :=
  if line.terminated && line.bytes.getLast? == some 13 then line.bytes.dropLast
  else line.bytes

/-- The text that bytes encode, if they are UTF-8. -/
def decode (bytes : List UInt8) : Option (List Char) :=
  (ByteArray.mk bytes.toArray).utf8Decode?.map Array.toList

/-- The characters of the lines before the first one that is not UTF-8. -/
def joinLines : List Line → List Char
  | [] => []
  | line :: lines =>
    match decode line.content with
    | some text => text ++ '\n' :: joinLines lines
    | none => []

/-- The characters of input that is read line by line. -/
def lineChars (bytes : List UInt8) : List Char := joinLines (splitLines bytes)

end Reckon.Text
