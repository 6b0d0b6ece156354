import Reckon.Token.Basic

/-!
# Positions

A position counts the characters before a place in a text, and it knows the
line and the column of the place.  Only a line feed begins a new line.
-/

namespace Reckon

/-- A place in a text. -/
structure Position where
  /-- The number of characters before it. -/
  offset : Nat
  /-- Its line, counted from one. -/
  line : Nat
  /-- The number of characters before it on its line. -/
  column : Nat
deriving Repr, DecidableEq

namespace Position

/-- The start of a text. -/
def start : Position := ⟨0, 1, 0⟩

/-- The place after a character. -/
def next (p : Position) (c : Char) : Position :=
  if c = '\n' then ⟨p.offset + 1, p.line + 1, 0⟩
  else ⟨p.offset + 1, p.line, p.column + 1⟩

/-- The place after some characters. -/
def after (p : Position) (text : List Char) : Position := text.foldl next p

/-- The span from one place to the offset of another. -/
def spanTo (p q : Position) : Span := ⟨p.offset, q.offset, p.line, p.column⟩

/-- The place where a span begins. -/
def ofSpan (span : Span) : Position := ⟨span.start, span.line, span.column⟩

end Position

end Reckon
