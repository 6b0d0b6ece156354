import Mathlib.Data.List.TakeWhile
import Reckon.Proofs.Token.Numerals
import Reckon.Token.Cursor

/-!
# Cutting written words

What a text is cut into does not depend on what follows it, as long as a word or
a numeral at its end is not continued there (`Cuts`).  A text that is put together
from blanks, symbols, words and numerals is cut at its joints
(`Cuts.blank`, `Cuts.symbol`, `Cuts.append`), and so the words of a sentence with
blanks between them are cut into these words again (`cuts_sentence`).
-/

namespace Reckon

namespace Word

/-- The names that a text can hold: a letter with letters and digits after it,
unless that spells a keyword. -/
structure IsName (name : String) : Prop where
  spelled : ∃ c rest, name.toList = c :: rest ∧ isLetter c = true ∧
    ∀ d ∈ rest, isWordChar d = true
  free : Keyword.ofText? name = none

/-- Whether a text is a name can be read off its characters. -/
theorem isName_of_all {name : String} (hhead : name.toList.head?.any isLetter = true)
    (htail : name.toList.tail.all isWordChar = true) (hfree : Keyword.ofText? name = none) :
    IsName name := by
  cases htext : name.toList with
  | nil =>
      rw [htext] at hhead
      cases hhead
  | cons c rest =>
      rw [htext] at hhead htail
      exact ⟨⟨c, rest, htext, hhead, List.all_eq_true.mp htail⟩, hfree⟩

end Word

/-- The characters that are lexemes by themselves. -/
structure IsSymbol (c : Char) : Prop where
  visible : Text.isBlank c = false
  code : c ≠ '#'
  other : Word.isLetter c = false
  plain : Numeral.isNumeralChar c = false

instance : DecidablePred IsSymbol := fun c =>
  decidable_of_iff (Text.isBlank c = false ∧ c ≠ '#' ∧ Word.isLetter c = false ∧
    Numeral.isNumeralChar c = false)
    ⟨fun ⟨visible, code, other, plain⟩ => ⟨visible, code, other, plain⟩,
      fun ⟨visible, code, other, plain⟩ => ⟨visible, code, other, plain⟩⟩

namespace Cursor

/-- After the separators there is neither a blank nor a comment. -/
theorem skipFrom_visible {inComment : Bool} {p : Position} {text : List Char} {c : Char}
    {rest : List Char} (h : (skipFrom inComment p text).rest = c :: rest) :
    Text.isBlank c = false ∧ c ≠ '#' := by
  induction text generalizing inComment p with
  | nil => cases h
  | cons d text ih =>
      unfold skipFrom at h
      split at h
      · exact ih h
      · split at h
        · exact ih h
        · next hblank =>
            split at h
            · exact ih h
            · next hcode =>
                obtain ⟨rfl, -⟩ := List.cons.inj h
                exact ⟨Bool.eq_false_iff.mpr hblank, hcode⟩

/-- What the rest of a text is cut into. -/
def lexemes (cursor : Cursor) : List Lexeme := cursor.tokens.pending.map Token.lexeme

/-- What comes first decides what the text is cut into. -/
theorem lexemes_congr {cursor other : Cursor} (h : cursor.next? = other.next?) :
    cursor.lexemes = other.lexemes := by
  unfold lexemes
  rw [tokens, tokens]
  split <;> split <;> simp_all

theorem lexemes_next {cursor after : Cursor} {token : Token}
    (h : cursor.next? = (some token, after)) :
    cursor.lexemes = token.lexeme :: after.lexemes := by
  unfold lexemes
  rw [tokens]
  split <;> simp_all

theorem lexemes_end (p : Position) : (Cursor.mk p []).lexemes = [] := by
  unfold lexemes
  rw [tokens]
  simp [next?, skip, skipFrom]

/-- A blank is passed over. -/
theorem lexemes_blank {c : Char} (h : Text.isBlank c = true) (p : Position) (rest : List Char) :
    (Cursor.mk p (c :: rest)).lexemes = (Cursor.mk (p.next c) rest).lexemes := by
  apply lexemes_congr
  simp [next?, skip, skipFrom, h]

/-- The piece at a character that is neither blank nor begins a comment. -/
theorem lexemes_piece {c : Char} (hvisible : Text.isBlank c = false) (hcode : c ≠ '#')
    (p : Position) (rest : List Char) :
    ∃ q, (Cursor.mk p (c :: rest)).lexemes =
      (pieceAt c rest).lexeme :: (Cursor.mk q (pieceAt c rest).rest).lexemes := by
  have hskip : (Cursor.mk p (c :: rest)).skip = ⟨p, c :: rest⟩ := by
    simp [skip, skipFrom, hvisible, hcode]
  have hnext : (Cursor.mk p (c :: rest)).next? =
      (some ⟨(pieceAt c rest).lexeme, p.spanTo (p.after (pieceAt c rest).text)⟩,
        ⟨p.after (pieceAt c rest).text, (pieceAt c rest).rest⟩) := by
    simp [next?, hskip]
  exact ⟨_, lexemes_next hnext⟩

end Cursor

/-- A character that continues neither a word nor a numeral. -/
def Breaks (c : Char) : Prop := Word.isWordChar c = false ∧ Numeral.isNumeralChar c = false

theorem IsSymbol.breaks {c : Char} (h : IsSymbol c) : Breaks c := by
  have hdigit : c.isDigit = false := by
    have hplain := h.plain
    simp only [Numeral.isNumeralChar, Bool.or_eq_false_iff] at hplain
    exact hplain.1
  have hletter : c.isAlpha = false := h.other
  exact ⟨by simp [Word.isWordChar, Char.isAlphanum, hletter, hdigit], h.plain⟩

/-- A text that does not continue the word or the numeral before it. -/
def Stops (rest : List Char) : Prop := ∀ c ∈ rest.head?, Breaks c

theorem Stops.cons {c : Char} (h : Breaks c) (rest : List Char) : Stops (c :: rest) := by
  intro d hd
  obtain rfl : c = d := by simpa using hd
  exact h

/-- A run of characters ends where the text stops. -/
theorem takeWhile_append_stop {p : Char → Bool} {text rest : List Char}
    (hall : ∀ c ∈ text, p c = true) (hstop : ∀ c ∈ rest.head?, p c = false) :
    (text ++ rest).takeWhile p = text := by
  rw [List.takeWhile_append_of_pos hall]
  cases rest with
  | nil => simp
  | cons c rest => simp [hstop c (by simp)]

theorem dropWhile_append_stop {p : Char → Bool} {text rest : List Char}
    (hall : ∀ c ∈ text, p c = true) (hstop : ∀ c ∈ rest.head?, p c = false) :
    (text ++ rest).dropWhile p = rest := by
  rw [List.dropWhile_append_of_pos hall]
  cases rest with
  | nil => rfl
  | cons c rest => simp [hstop c (by simp)]

/-- A text is cut into some words wherever it stands, before anything that does
not continue its last word. -/
def Cuts (text : List Char) (words : List Lexeme) : Prop :=
  ∀ p rest, Stops rest →
    ∃ q, (Cursor.mk p (text ++ rest)).lexemes = words ++ (Cursor.mk q rest).lexemes

/-- Digits, letters and the dot are neither blank nor do they begin a comment. -/
theorem visible_of_code {c : Char} (hleast : '.'.toNat ≤ c.toNat)
    (hgreatest : c.toNat ≤ 'z'.toNat) : Text.isBlank c = false ∧ c ≠ '#' := by
  constructor
  · simp only [Char.reduceToNat] at hleast hgreatest
    simp only [Text.isBlank, Text.blankRanges, List.any_eq_false, List.mem_cons, List.not_mem_nil]
    simp
    omega
  · rintro rfl
    simp at hleast

theorem isLetter_iff {c : Char} : Word.isLetter c = true ↔
    ('A'.toNat ≤ c.toNat ∧ c.toNat ≤ 'Z'.toNat) ∨ ('a'.toNat ≤ c.toNat ∧ c.toNat ≤ 'z'.toNat) := by
  have hletter : Word.isLetter c = (decide ('A'.val ≤ c.val ∧ c.val ≤ 'Z'.val) ||
      decide ('a'.val ≤ c.val) && decide (c.val ≤ 'z'.val)) := rfl
  simp only [hletter, Bool.or_eq_true, Bool.and_eq_true, decide_eq_true_eq]
  rfl

theorem isDigit_iff {c : Char} : c.isDigit = true ↔ '0'.toNat ≤ c.toNat ∧ c.toNat ≤ '9'.toNat := by
  simp only [Char.isDigit, Bool.and_eq_true, decide_eq_true_eq]
  rfl

theorem code_of_isLetter {c : Char} (h : Word.isLetter c = true) :
    '.'.toNat ≤ c.toNat ∧ c.toNat ≤ 'z'.toNat := by
  rw [isLetter_iff] at h
  simp only [Char.reduceToNat] at h ⊢
  omega

theorem code_of_isNumeralChar {c : Char} (h : Numeral.isNumeralChar c = true) :
    '.'.toNat ≤ c.toNat ∧ c.toNat ≤ 'z'.toNat ∧ Word.isLetter c = false := by
  simp only [Numeral.isNumeralChar, Bool.or_eq_true, beq_iff_eq] at h
  rcases h with hdigit | rfl
  · rw [isDigit_iff] at hdigit
    rw [← Bool.not_eq_true, isLetter_iff]
    simp only [Char.reduceToNat] at hdigit ⊢
    omega
  · decide

namespace Cuts

variable {text text' : List Char} {words words' : List Lexeme} {c : Char}

theorem nil : Cuts [] [] := fun p _ _ => ⟨p, rfl⟩

theorem blank (h : Cuts text words) : Cuts (' ' :: text) words := by
  intro p rest hstop
  obtain ⟨q, hq⟩ := h (p.next ' ') rest hstop
  refine ⟨q, ?_⟩
  rw [List.cons_append, Cursor.lexemes_blank (by decide), hq]

theorem symbol (hc : IsSymbol c) (h : Cuts text words) : Cuts (c :: text) (.symbol c :: words) := by
  intro p rest hstop
  have hpiece : Cursor.pieceAt c (text ++ rest) = ⟨.symbol c, [c], text ++ rest⟩ := by
    simp [Cursor.pieceAt, hc.other, hc.plain]
  obtain ⟨q, hq⟩ := Cursor.lexemes_piece hc.visible hc.code p (text ++ rest)
  rw [hpiece] at hq
  obtain ⟨q', hq'⟩ := h q rest hstop
  refine ⟨q', ?_⟩
  rw [List.cons_append, hq, hq', List.cons_append]

/-- Texts are joined where the second one does not continue the first. -/
theorem append (h : Cuts text words) (hc : Breaks c) (h' : Cuts (c :: text') words') :
    Cuts (text ++ c :: text') (words ++ words') := by
  intro p rest hstop
  obtain ⟨q, hq⟩ := h p (c :: text' ++ rest) (Stops.cons hc _)
  obtain ⟨q', hq'⟩ := h' q rest hstop
  refine ⟨q', ?_⟩
  rw [List.append_assoc, hq, hq', List.append_assoc]

theorem word (hc : Word.isLetter c = true) (hrest : ∀ d ∈ text, Word.isWordChar d = true) :
    Cuts (c :: text) [Word.lexeme (c :: text)] := by
  intro p rest hstop
  have hstops : ∀ d ∈ rest.head?, Word.isWordChar d = false := fun d hd => (hstop d hd).1
  have hpiece : Cursor.pieceAt c (text ++ rest) =
      ⟨Word.lexeme (c :: text), c :: text, rest⟩ := by
    simp [Cursor.pieceAt, hc, takeWhile_append_stop hrest hstops,
      dropWhile_append_stop hrest hstops]
  obtain ⟨hleast, hgreatest⟩ := code_of_isLetter hc
  obtain ⟨hvisible, hcode⟩ := visible_of_code hleast hgreatest
  obtain ⟨q, hq⟩ := Cursor.lexemes_piece hvisible hcode p (text ++ rest)
  rw [hpiece] at hq
  exact ⟨q, hq⟩

theorem numeral (hne : text ≠ []) (hall : ∀ c ∈ text, Numeral.isNumeralChar c = true) :
    Cuts text [.number (Numeral.read text)] := by
  obtain ⟨c, text, rfl⟩ := List.exists_cons_of_ne_nil hne
  intro p rest hstop
  have hstops : ∀ d ∈ rest.head?, Numeral.isNumeralChar d = false := fun d hd => (hstop d hd).2
  obtain ⟨hc, hothers⟩ := List.forall_mem_cons.mp hall
  obtain ⟨hleast, hgreatest, hletter⟩ := code_of_isNumeralChar hc
  have hpiece : Cursor.pieceAt c (text ++ rest) =
      ⟨.number (Numeral.read (c :: text)), c :: text, rest⟩ := by
    simp [Cursor.pieceAt, hletter, hc, takeWhile_append_stop hothers hstops,
      dropWhile_append_stop hothers hstops]
  obtain ⟨hvisible, hcode⟩ := visible_of_code hleast hgreatest
  obtain ⟨q, hq⟩ := Cursor.lexemes_piece hvisible hcode p (text ++ rest)
  rw [hpiece] at hq
  exact ⟨q, hq⟩

/-- Texts with a separator between them are cut into their words with what the
separator is cut into between them. -/
theorem intercalate {α : Type} {xs : List α} {text : α → List Char} {words : α → List Lexeme}
    {sep : List Char} {sepWords : List Lexeme}
    (hsep : ∀ {text words}, Cuts text words → Cuts (' ' :: sep ++ text) (sepWords ++ words))
    (h : ∀ x ∈ xs, Cuts (text x) (words x)) :
    Cuts ((' ' :: sep).intercalate (xs.map text)) (sepWords.intercalate (xs.map words)) := by
  induction xs with
  | nil => exact nil
  | cons x xs ih =>
      obtain ⟨hx, hxs⟩ := List.forall_mem_cons.mp h
      cases xs with
      | nil => simpa using hx
      | cons y ys =>
          have hothers := hx.append ⟨by decide, by decide⟩ (hsep (ih hxs))
          simpa [List.intercalate_cons_cons] using hothers

end Cuts

/-- The text of a lexeme. -/
def Lexeme.text : Lexeme → String
  | .keyword word => word.text
  | .identifier name => name
  | .number value => Binary64.plain value
  | .symbol c => String.singleton c

/-- The lexemes that a text can hold. -/
def Lexeme.IsLegible : Lexeme → Prop
  | .keyword _ => True
  | .identifier name => Word.IsName name
  | .number value => value.isFinite = true ∧ Binary64.isNegative value = false
  | .symbol c => IsSymbol c

theorem Word.IsName.cuts {name : String} (h : Word.IsName name) :
    Cuts name.toList [.identifier name] := by
  obtain ⟨c, rest, htext, hletter, hrest⟩ := h.spelled
  have hlexeme : Word.lexeme (c :: rest) = .identifier name := by
    rw [← htext]
    simp [Word.lexeme, h.free]
  rw [htext, ← hlexeme]
  exact .word hletter hrest

theorem Keyword.cuts (word : Keyword) : Cuts word.text.toList [.keyword word] := by
  have hlexeme : Word.lexeme word.text.toList = .keyword word := by
    simp [Word.lexeme, ofText?_text]
  obtain ⟨c, rest, htext, hletter, hrest⟩ : ∃ c rest, word.text.toList = c :: rest ∧
      Word.isLetter c = true ∧ ∀ d ∈ rest, Word.isWordChar d = true := by
    cases word <;> exact ⟨_, _, rfl, by decide, List.all_eq_true.mp (by decide)⟩
  rw [← hlexeme, htext]
  exact .word hletter hrest

/-- A lexeme is cut off its own text. -/
theorem Lexeme.IsLegible.cuts {word : Lexeme} (h : word.IsLegible) :
    Cuts word.text.toList [word] := by
  cases word with
  | keyword word => exact word.cuts
  | identifier name => exact Word.IsName.cuts h
  | number value =>
      obtain ⟨hfinite, hpositive⟩ := h
      obtain ⟨digits, places, hspells, -⟩ := Numeral.plain_spells hfinite hpositive
      have hcuts := Cuts.numeral hspells.nonempty hspells.chars
      rw [Numeral.read_plain hfinite hpositive] at hcuts
      exact hcuts
  | symbol c => simpa [text] using Cuts.symbol h .nil

/-- The text of some words with a blank between them. -/
def sentence (words : List Lexeme) : String := " ".intercalate (words.map Lexeme.text)

theorem intercalate_singletons (words : List Lexeme) :
    [].intercalate (words.map fun word => [word]) = words := by
  induction words with
  | nil => rfl
  | cons word words ih =>
      cases words with
      | nil => rfl
      | cons other others =>
          rw [List.map_cons] at ih
          rw [List.map_cons, List.map_cons, List.intercalate_cons_cons, ih]
          rfl

theorem cuts_sentence {words : List Lexeme} (h : ∀ word ∈ words, word.IsLegible) :
    Cuts (sentence words).toList words := by
  have hcuts : Cuts ([' '].intercalate (words.map fun word => word.text.toList))
      ([].intercalate (words.map fun word => [word])) :=
    .intercalate Cuts.blank fun word hword => (h word hword).cuts
  rw [intercalate_singletons] at hcuts
  simpa [sentence, Function.comp_def] using hcuts

end Reckon
