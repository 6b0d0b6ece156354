import Reckon.Binary64.Plain

/-!
# Tokens

A token is a lexeme together with the stretch of text it was read from.  The
end of the input is not a token: it is where the tokens run out.
-/

namespace Reckon

/-- Words that cannot be names. -/
inductive Keyword where
  | definition
  | declaration
  | ifWord
  | thenWord
  | elseWord
  | forWord
  | inWord
  | binary
  | unary
  | varWord
deriving Repr, DecidableEq

namespace Keyword

/-- The spelling of a keyword. -/
def text : Keyword → String
  | definition => "def"
  | declaration => "extern"
  | ifWord => "if"
  | thenWord => "then"
  | elseWord => "else"
  | forWord => "for"
  | inWord => "in"
  | binary => "binary"
  | unary => "unary"
  | varWord => "var"

/-- Every keyword. -/
def all : List Keyword :=
  [definition, declaration, ifWord, thenWord, elseWord, forWord, inWord, binary,
    unary, varWord]

/-- The keyword with a given spelling. -/
def ofText? (text : String) : Option Keyword :=
  all.find? fun keyword => keyword.text == text

/-- A keyword is found by its spelling. -/
theorem ofText?_text (keyword : Keyword) : ofText? keyword.text = some keyword := by
  cases keyword <;> decide

end Keyword

/-- What a token says. -/
inductive Lexeme where
  /-- A keyword. -/
  | keyword (word : Keyword)
  /-- A name. -/
  | identifier (name : String)
  /-- A number literal. -/
  | number (value : Float)
  /-- Any other single character: punctuation and operators. -/
  | symbol (c : Char)
deriving Repr, DecidableEq

/-- How messages show a lexeme. -/
def Lexeme.display : Lexeme → String
  | .keyword word => s!"'{word.text}'"
  | .identifier name => s!"identifier '{name}'"
  | .number value => s!"number {Binary64.plain value}"
  | .symbol c => s!"'{c}'"

/-- How messages show the end of the input. -/
def endDisplay : String := "end of input"

/-- A stretch of text.  Offsets count characters; the line and the column are
those of the first character, counted from one and from zero. -/
structure Span where
  /-- The offset of the first character. -/
  start : Nat
  /-- The offset after the last character. -/
  stop : Nat
  /-- The line of the first character. -/
  line : Nat
  /-- The column of the first character. -/
  column : Nat
deriving Repr, DecidableEq

/-- A lexeme and where it stands. -/
structure Token where
  /-- What the token says. -/
  lexeme : Lexeme
  /-- Where it stands. -/
  span : Span
deriving Repr, DecidableEq

/-- The tokens still to be read, and the empty span where they run out. -/
structure Tokens where
  /-- The tokens not yet consumed. -/
  pending : List Token
  /-- The span of the end of the input. -/
  finish : Span
deriving Repr, DecidableEq

namespace Tokens

/-- The number of tokens not yet consumed. -/
def size (ts : Tokens) : Nat := ts.pending.length

/-- The current token, unless the tokens have run out. -/
def head? (ts : Tokens) : Option Token := ts.pending.head?

/-- What the current token says. -/
def lexeme? (ts : Tokens) : Option Lexeme := ts.head?.map Token.lexeme

/-- The span of the current token or of the end of the input. -/
def span (ts : Tokens) : Span := (ts.head?.map Token.span).getD ts.finish

/-- Consume the current token; at the end this changes nothing. -/
def tail (ts : Tokens) : Tokens := { ts with pending := ts.pending.tail }

theorem size_tail_le (ts : Tokens) : ts.tail.size ≤ ts.size := by
  simp [size, tail]

/-- Consuming a token leaves one token less. -/
theorem size_tail {ts : Tokens} {lexeme : Lexeme} (h : ts.lexeme? = some lexeme) :
    ts.tail.size + 1 = ts.size := by
  cases hp : ts.pending with
  | nil => simp [lexeme?, head?, hp] at h
  | cons token rest => simp [size, tail, hp]

/-- The tokens have run out exactly when there is no current one. -/
theorem lexeme?_eq_none_iff {ts : Tokens} : ts.lexeme? = none ↔ ts.pending = [] := by
  simp [lexeme?, head?]

end Tokens

end Reckon
