import Reckon.Proofs.Text.Lines
import Reckon.Proofs.Token.Segmentation

/-!
# Tokens do not depend on line ends

A text and the same text with its line ends rewritten are cut into the same lexemes at the same
lines and columns (`Text.Sheds.alike`), although the offsets differ from the first carriage
return on.  A carriage return that is shed stands directly before a line feed: both are blank,
both end a comment, and the line feed alone counts lines, so behind it the two texts agree again
on the line and the column.
-/

namespace Reckon

/-- What a token says, and the line and the column where it says it. -/
def Token.place (token : Token) : Lexeme × Nat × Nat :=
  (token.lexeme, token.span.line, token.span.column)

/-- Two inputs have the same lexemes at the same lines and columns. -/
def Tokens.Alike (ts ts' : Tokens) : Prop :=
  ts'.pending.map Token.place = ts.pending.map Token.place

namespace Position

/-- Two positions have the same line and column, wherever they are in their texts. -/
structure Level (p p' : Position) : Prop where
  line : p'.line = p.line
  column : p'.column = p.column

namespace Level

variable {p p' : Position}

theorem next (h : Level p p') (c : Char) : Level (p.next c) (p'.next c) := by
  unfold Position.next
  split
  · exact ⟨congrArg (· + 1) h.line, rfl⟩
  · exact ⟨h.line, congrArg (· + 1) h.column⟩

theorem after (h : Level p p') (text : List Char) : Level (p.after text) (p'.after text) := by
  induction text generalizing p p' with
  | nil => exact h
  | cons c text ih => exact ih (h.next c)

/-- A line feed is the same behind a carriage return as without it. -/
theorem shed (h : Level p p') : Level ((p.next '\r').next '\n') (p'.next '\n') :=
  ⟨congrArg (· + 1) h.line, rfl⟩

end Level

end Position

namespace Text.Sheds

variable {text fed : List Char}

/-- A run of characters that are no line ends is not changed. -/
theorem takeWhile_eq (h : Sheds text fed) {p : Char → Bool} (hreturn : p '\r' = false)
    (hfeed : p '\n' = false) : fed.takeWhile p = text.takeWhile p := by
  induction h with
  | stop => rfl
  | finish => simp [hfeed]
  | keep c behind ih => simp only [List.takeWhile_cons, ih]
  | shed behind ih => simp [hreturn, hfeed]

theorem dropWhile (h : Sheds text fed) {p : Char → Bool} (hreturn : p '\r' = false)
    (hfeed : p '\n' = false) : Sheds (text.dropWhile p) (fed.dropWhile p) := by
  induction h with
  | stop => exact .stop
  | finish => simpa [hfeed] using Sheds.finish
  | keep c behind ih =>
      simp only [List.dropWhile_cons]
      split
      · exact ih
      · exact .keep c behind
  | shed behind ih => simpa [hreturn, hfeed] using Sheds.shed behind

end Text.Sheds

namespace Cursor

open Text (Sheds)

/-- Two cursors at the same line and column, before texts that differ in line ends only. -/
structure Beside (cursor cursor' : Cursor) : Prop where
  level : cursor.position.Level cursor'.position
  rest : Sheds cursor.rest cursor'.rest

/-- Separators end at the same character at the same place, or both run up to the end. -/
inductive Arrive : Cursor → Cursor → Prop where
  | code {p p' : Position} {c : Char} {text fed : List Char} (level : p.Level p')
      (behind : Sheds text fed) : Arrive ⟨p, c :: text⟩ ⟨p', c :: fed⟩
  | finish {p p' : Position} : Arrive ⟨p, []⟩ ⟨p', []⟩

theorem skipFrom_arrive {text fed : List Char} (h : Sheds text fed) {p p' : Position}
    (hlevel : p.Level p') (inComment : Bool) :
    Arrive (skipFrom inComment p text) (skipFrom inComment p' fed) := by
  induction h generalizing p p' inComment with
  | stop => exact .finish
  | finish =>
      have hfed : skipFrom inComment p' ['\n'] = ⟨p'.next '\n', []⟩ := by
        cases inComment <;> rfl
      rw [hfed]
      exact .finish
  | keep c behind ih =>
      simp only [skipFrom]
      split
      · exact ih (hlevel.next c) _
      · split
        · exact ih (hlevel.next c) _
        · split
          · exact ih (hlevel.next c) _
          · exact .code hlevel behind
  | @shed text fed behind ih =>
      -- both line ends are blank and end a comment
      have htext : skipFrom inComment p ('\r' :: '\n' :: text) =
          skipFrom false ((p.next '\r').next '\n') text := by
        cases inComment <;> rfl
      have hfed : skipFrom inComment p' ('\n' :: fed) = skipFrom false (p'.next '\n') fed := by
        cases inComment <;> rfl
      rw [htext, hfed]
      exact ih hlevel.shed false

/-- A piece is cut off the same way, and what is left differs in line ends only. -/
theorem pieceAt_sheds {text fed : List Char} (h : Sheds text fed) (c : Char) :
    (pieceAt c fed).lexeme = (pieceAt c text).lexeme ∧
      (pieceAt c fed).text = (pieceAt c text).text ∧
      Sheds (pieceAt c text).rest (pieceAt c fed).rest := by
  unfold pieceAt
  split
  · rw [h.takeWhile_eq (by decide) (by decide)]
    exact ⟨rfl, rfl, h.dropWhile (by decide) (by decide)⟩
  · split
    · rw [h.takeWhile_eq (by decide) (by decide)]
      exact ⟨rfl, rfl, h.dropWhile (by decide) (by decide)⟩
    · exact ⟨rfl, rfl, h⟩

/-- What two cursors find: the same token at the same place, or nothing. -/
inductive Finds : Option Token × Cursor → Option Token × Cursor → Prop where
  | token {token token' : Token} {after after' : Cursor} (same : token'.place = token.place)
      (beside : after.Beside after') : Finds (some token, after) (some token', after')
  | nothing {here here' : Cursor} : Finds (none, here) (none, here')

theorem Beside.next? {cursor cursor' : Cursor} (h : cursor.Beside cursor') :
    Finds cursor.next? cursor'.next? := by
  have harrive := skipFrom_arrive h.rest h.level false
  unfold Cursor.next? skip
  generalize skipFrom false cursor.position cursor.rest = here at harrive ⊢
  generalize skipFrom false cursor'.position cursor'.rest = here' at harrive ⊢
  cases harrive with
  | finish => exact .nothing
  | @code p p' c text fed level behind =>
      obtain ⟨hlexeme, htext, hrest⟩ := pieceAt_sheds behind c
      refine .token ?_ ⟨?_, hrest⟩
      · simp only [Token.place, Position.spanTo, hlexeme, level.line, level.column]
      · dsimp only
        rw [htext]
        exact level.after _

/-- Texts that differ in line ends only are cut alike. -/
theorem Beside.tokens {cursor cursor' : Cursor} (h : cursor.Beside cursor') :
    cursor.tokens.Alike cursor'.tokens := by
  have hfinds := h.next?
  rcases hnext : cursor.next? with ⟨found, after⟩
  rcases hnext' : cursor'.next? with ⟨found', after'⟩
  rw [hnext, hnext'] at hfinds
  cases hfinds with
  | nothing =>
      rw [tokens_of_none hnext, tokens_of_none hnext']
      rfl
  | token same beside =>
      rw [tokens_of_some hnext, tokens_of_some hnext']
      have hothers : after.tokens.Alike after'.tokens := beside.tokens
      exact congrArg₂ List.cons same hothers
termination_by cursor.rest.length
decreasing_by exact next?_length_lt hnext

end Cursor

/-- **Line ends do not matter to tokens.** -/
theorem Text.Sheds.alike {text fed : List Char} (h : Sheds text fed) :
    (Tokens.ofChars text).Alike (Tokens.ofChars fed) :=
  Cursor.Beside.tokens ⟨⟨rfl, rfl⟩, h⟩

end Reckon
