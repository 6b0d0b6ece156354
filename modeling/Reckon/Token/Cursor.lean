import Reckon.Text.Blank
import Reckon.Token.Numeral
import Reckon.Token.Position

/-!
# Cutting text into tokens

Blank characters and comments separate tokens.  A word is a letter with all
the letters and digits that follow, a number is a run of digits and dots, and
any other character is a token by itself.  Letters and digits are the ASCII
ones.  Cutting never fails: whether a symbol makes sense is for the grammar to
say.

The main step is `Cursor.next?`, which returns a token and the cursor after
it; `Cursor.next?_length_lt` says that each token takes text.
-/

namespace Reckon

namespace Word

/-- Whether a character may begin a word. -/
def isLetter (c : Char) : Bool := c.isAlpha

/-- Whether a character may continue a word. -/
def isWordChar (c : Char) : Bool := c.isAlphanum

/-- The lexeme of a word. -/
def lexeme (text : List Char) : Lexeme :=
  let name := String.ofList text
  match Keyword.ofText? name with
  | some word => .keyword word
  | none => .identifier name

end Word

/-- A place in a text and the text from there on. -/
structure Cursor where
  /-- The place. -/
  position : Position
  /-- The text not yet read. -/
  rest : List Char
deriving Repr, DecidableEq

namespace Cursor

/-- The start of a text. -/
def ofChars (text : List Char) : Cursor := ⟨Position.start, text⟩

/-- The place after the separators at the start of a text, and what follows.
The flag tells whether the place is inside a comment, which runs to the end of
the line. -/
def skipFrom (inComment : Bool) (p : Position) : List Char → Cursor
  | [] => ⟨p, []⟩
  | c :: rest =>
    if inComment then skipFrom (!Text.endsLine c) (p.next c) rest
    else if Text.isBlank c then skipFrom false (p.next c) rest
    else if c = '#' then skipFrom true (p.next c) rest
    else ⟨p, c :: rest⟩

/-- The cursor after blanks and comments. -/
def skip (cursor : Cursor) : Cursor := skipFrom false cursor.position cursor.rest

/-- A lexeme cut off the start of a text. -/
structure Piece where
  /-- What the piece says. -/
  lexeme : Lexeme
  /-- The characters of the piece. -/
  text : List Char
  /-- The text after it. -/
  rest : List Char
deriving Repr, DecidableEq

/-- The piece that begins with a given character. -/
def pieceAt (c : Char) (rest : List Char) : Piece :=
  if Word.isLetter c then
    let text := c :: rest.takeWhile Word.isWordChar
    ⟨Word.lexeme text, text, rest.dropWhile Word.isWordChar⟩
  else if Numeral.isNumeralChar c then
    let text := c :: rest.takeWhile Numeral.isNumeralChar
    ⟨.number (Numeral.read text), text, rest.dropWhile Numeral.isNumeralChar⟩
  else ⟨.symbol c, [c], rest⟩

/-- The next token and the cursor after it, or no token at the end. -/
def next? (cursor : Cursor) : Option Token × Cursor :=
  let here := cursor.skip
  match here.rest with
  | [] => (none, here)
  | c :: rest =>
    let piece := pieceAt c rest
    let stop := here.position.after piece.text
    (some ⟨piece.lexeme, here.position.spanTo stop⟩, ⟨stop, piece.rest⟩)

theorem skipFrom_length_le (inComment : Bool) (p : Position) (text : List Char) :
    (skipFrom inComment p text).rest.length ≤ text.length := by
  induction text generalizing inComment p with
  | nil => simp [skipFrom]
  | cons c rest ih => grind [skipFrom]

theorem pieceAt_length_le (c : Char) (rest : List Char) :
    (pieceAt c rest).rest.length ≤ rest.length := by
  unfold pieceAt
  split
  · exact (List.dropWhile_sublist _).length_le
  · split
    · exact (List.dropWhile_sublist _).length_le
    · exact Nat.le_refl _

/-- Every token takes text. -/
theorem next?_length_lt {cursor after : Cursor} {token : Token}
    (h : cursor.next? = (some token, after)) :
    after.rest.length < cursor.rest.length := by
  have hskip := skipFrom_length_le false cursor.position cursor.rest
  simp only [next?, skip] at h
  split at h
  · simp at h
  · next c rest hrest =>
    obtain ⟨-, rfl⟩ := Prod.mk.inj h
    have hpiece := pieceAt_length_le c rest
    rw [hrest] at hskip
    simp only [List.length_cons] at hskip ⊢
    omega

/-- Cut the rest of a text into tokens. -/
def tokens (cursor : Cursor) : Tokens :=
  match _h : cursor.next? with
  | (none, here) => ⟨[], here.position.spanTo here.position⟩
  | (some token, after) =>
    let others := after.tokens
    { others with pending := token :: others.pending }
termination_by cursor.rest.length
decreasing_by exact next?_length_lt _h

end Cursor

/-- Cut a text into tokens. -/
def Tokens.ofChars (text : List Char) : Tokens := (Cursor.ofChars text).tokens

/-- Cut a string into tokens. -/
def Tokens.ofString (text : String) : Tokens := Tokens.ofChars text.toList

end Reckon
