import Mathlib.Data.List.Induction
import Reckon.Proofs.Token.Cutting

/-!
# Every character has its place

Cutting a text loses no character and reads none twice: a character belongs to a token
exactly if it is neither blank nor in a comment, and every token is as long as its kind
allows (`Tokens.ofChars_segments`).  What carries the proof through a text is whether
the text before a cursor ends inside a comment.
-/

namespace Reckon

namespace Text

/-- A text ends inside a comment: after some `#` no line ends. -/
def EndsInComment (text : List Char) : Prop :=
  ∃ before comment, text = before ++ '#' :: comment ∧ ∀ c ∈ comment, endsLine c = false

theorem not_endsInComment_nil : ¬EndsInComment [] := by
  rintro ⟨before, comment, htext, -⟩
  simp at htext

/-- One more character is in a comment if it begins one, or if it stands in one and does
not end it. -/
theorem endsInComment_concat {text : List Char} {c : Char} :
    EndsInComment (text ++ [c]) ↔ c = '#' ∨ EndsInComment text ∧ endsLine c = false := by
  constructor
  · rintro ⟨before, comment, htext, hcomment⟩
    rcases List.eq_nil_or_concat comment with rfl | ⟨comment, d, rfl⟩
    · exact Or.inl (List.singleton_inj.mp (List.append_inj' htext rfl).2)
    · rw [List.concat_eq_append] at htext hcomment
      rw [← List.cons_append, ← List.append_assoc] at htext
      obtain ⟨rfl, hlast⟩ := List.append_inj' htext rfl
      obtain rfl := List.singleton_inj.mp hlast
      obtain ⟨hbefore, hc⟩ := List.forall_mem_append.mp hcomment
      exact Or.inr ⟨⟨before, comment, rfl, hbefore⟩, hc c (List.mem_singleton_self c)⟩
  · rintro (rfl | ⟨⟨before, comment, rfl, hcomment⟩, hc⟩)
    · exact ⟨text, [], rfl, by simp⟩
    · refine ⟨before, comment ++ [c], by simp, ?_⟩
      exact List.forall_mem_append.mpr ⟨hcomment, by simpa using hc⟩

/-- A comment begins with `#` only. -/
theorem EndsInComment.of_append {text more : List Char} (h : EndsInComment (text ++ more))
    (hmore : ∀ c ∈ more, c ≠ '#') : EndsInComment text := by
  induction more using List.reverseRecOn with
  | nil => simpa using h
  | append_singleton more c ih =>
      obtain ⟨hothers, hc⟩ := List.forall_mem_append.mp hmore
      rw [← List.append_assoc, endsInComment_concat] at h
      rcases h with rfl | ⟨h, -⟩
      · exact absurd rfl (hc '#' (List.mem_singleton_self _))
      · exact ih h hothers

end Text

/-- The number of characters since the last line feed. -/
def Text.column (before : List Char) : Nat := (before.reverse.takeWhile (· != '\n')).length

/-- The span of a piece of text that stands after some other text. -/
def Span.behind (before piece : List Char) : Span :=
  ⟨before.length, before.length + piece.length, 1 + before.count '\n', Text.column before⟩

/-- A position knows how much text is before it, and how many lines. -/
theorem Position.start_after (before : List Char) :
    Position.start.after before =
      ⟨before.length, 1 + before.count '\n', Text.column before⟩ := by
  induction before using List.reverseRecOn with
  | nil => rfl
  | append_singleton before c ih =>
      have hnext : Position.start.after (before ++ [c]) =
          (Position.start.after before).next c := by simp [after]
      rw [hnext, ih, Position.next]
      by_cases hc : c = '\n'
      · simp [hc, Text.column, Nat.add_assoc]
      · simp [hc, Text.column]

/-- A span covers the offsets of the characters of its piece. -/
def Span.Covers (span : Span) (offset : Nat) : Prop := span.start ≤ offset ∧ offset < span.stop

theorem Position.after_append (p : Position) (text more : List Char) :
    p.after (text ++ more) = (p.after text).after more := List.foldl_append

theorem Position.spanTo_after (before piece : List Char) :
    (start.after before).spanTo (start.after (before ++ piece)) = .behind before piece := by
  simp [start_after, spanTo, Span.behind]

namespace Cursor

/-- A piece is as long as its kind allows: a letter with all the letters and digits that
follow, a run of digits and dots that none follows, or one other character. -/
inductive Piece.IsMaximal : Piece → Prop
  | word {c : Char} {chars rest : List Char} (letter : Word.isLetter c = true)
      (run : ∀ d ∈ chars, Word.isWordChar d = true)
      (ends : ∀ d ∈ rest.head?, Word.isWordChar d = false) :
      IsMaximal ⟨Word.lexeme (c :: chars), c :: chars, rest⟩
  | numeral {chars rest : List Char} (nonempty : chars ≠ [])
      (run : ∀ d ∈ chars, Numeral.isNumeralChar d = true)
      (ends : ∀ d ∈ rest.head?, Numeral.isNumeralChar d = false) :
      IsMaximal ⟨.number (Numeral.read chars), chars, rest⟩
  | symbol {c : Char} {rest : List Char} (symbol : IsSymbol c) : IsMaximal ⟨.symbol c, [c], rest⟩

/-- What `dropWhile` leaves begins with no character that it drops. -/
theorem head?_dropWhile {p : Char → Bool} {text : List Char} :
    ∀ d ∈ (text.dropWhile p).head?, p d = false := by
  intro d hd
  have hstop := List.head?_dropWhile_not p text
  rw [Option.mem_def.mp hd] at hstop
  simpa using hstop

/-- A piece is cut off the text, and it is as long as it can be. -/
theorem pieceAt_isMaximal {c : Char} (hvisible : Text.isBlank c = false) (hcode : c ≠ '#')
    (rest : List Char) : (pieceAt c rest).IsMaximal ∧
      c :: rest = (pieceAt c rest).text ++ (pieceAt c rest).rest := by
  unfold pieceAt
  split
  · next hletter =>
      refine ⟨.word hletter (fun d hd => List.mem_takeWhile_imp hd) head?_dropWhile, ?_⟩
      rw [List.cons_append, List.takeWhile_append_dropWhile]
  · next hletter =>
      split
      · next hnumeral =>
          refine ⟨.numeral (List.cons_ne_nil _ _) ?_ head?_dropWhile, ?_⟩
          · exact List.forall_mem_cons.mpr ⟨hnumeral, fun d hd => List.mem_takeWhile_imp hd⟩
          · rw [List.cons_append, List.takeWhile_append_dropWhile]
      · next hnumeral =>
          refine ⟨.symbol ⟨hvisible, hcode, ?_, ?_⟩, rfl⟩
          · exact Bool.eq_false_iff.mpr hletter
          · exact Bool.eq_false_iff.mpr hnumeral

namespace Piece.IsMaximal

variable {piece : Piece}

theorem ne_nil (h : piece.IsMaximal) : piece.text ≠ [] := by
  cases h with
  | word letter run ends => exact List.cons_ne_nil _ _
  | numeral nonempty run ends => exact nonempty
  | symbol symbol => exact List.cons_ne_nil _ _

/-- The characters of a piece are neither blank nor do they begin a comment. -/
theorem visible (h : piece.IsMaximal) : ∀ c ∈ piece.text, Text.isBlank c = false ∧ c ≠ '#' := by
  cases h with
  | word letter run ends =>
      have hword {d : Char} (hd : Word.isWordChar d = true) : Text.isBlank d = false ∧ d ≠ '#' := by
        simp only [Word.isWordChar, Char.isAlphanum, Bool.or_eq_true] at hd
        rcases hd with hletter | hdigit
        · exact (code_of_isLetter hletter).elim visible_of_code
        · obtain ⟨hleast, hgreatest, -⟩ :=
            code_of_isNumeralChar (c := d) (by simp [Numeral.isNumeralChar, hdigit])
          exact visible_of_code hleast hgreatest
      refine List.forall_mem_cons.mpr ⟨(code_of_isLetter letter).elim visible_of_code, ?_⟩
      exact fun d hd => hword (run d hd)
  | numeral nonempty run ends =>
      intro d hd
      obtain ⟨hleast, hgreatest, -⟩ := code_of_isNumeralChar (run d hd)
      exact visible_of_code hleast hgreatest
  | symbol symbol => simpa using ⟨symbol.visible, symbol.code⟩

end Piece.IsMaximal

/-- The text before a cursor is a gap: every character of it is blank or in a comment, and
the text after it does not begin in a comment. -/
structure Skips (before : List Char) (p : Position) (text gap : List Char) (here : Cursor) :
    Prop where
  split : text = gap ++ here.rest
  position : here.position = p.after gap
  passed : ∀ front c back, gap = front ++ c :: back →
    Text.isBlank c = true ∨ Text.EndsInComment (before ++ front ++ [c])
  code : here.rest ≠ [] → ¬Text.EndsInComment (before ++ gap)

theorem Skips.cons {before text gap : List Char} {p : Position} {c : Char} {here : Cursor}
    (h : Skips (before ++ [c]) (p.next c) text gap here)
    (hc : Text.isBlank c = true ∨ Text.EndsInComment (before ++ [c])) :
    Skips before p (c :: text) (c :: gap) here where
  split := by rw [List.cons_append, ← h.split]
  position := h.position
  passed := by
    intro front d back hgap
    rcases List.cons_eq_append_iff.mp hgap with ⟨rfl, hback⟩ | ⟨front, rfl, hback⟩
    · obtain ⟨rfl, -⟩ := List.cons.inj hback
      simpa using hc
    · simpa using h.passed front d back hback
  code := by simpa using h.code

/-- Blanks and comments are skipped.  The flag tells whether the text before ends inside a
comment. -/
theorem skipFrom_skips {inComment : Bool} {before : List Char} (p : Position) (text : List Char)
    (h : inComment = true ↔ Text.EndsInComment before) :
    ∃ gap, Skips before p text gap (skipFrom inComment p text) := by
  induction text generalizing inComment before p with
  | nil => exact ⟨[], rfl, rfl, by simp, fun hne => absurd rfl hne⟩
  | cons c text ih =>
      unfold skipFrom
      split
      · next hin =>
          -- the comment goes on unless the character ends its line
          have hopen : Text.EndsInComment before := h.mp hin
          have hcode : c = '#' → Text.endsLine c = false := by
            rintro rfl
            decide
          have hends : Text.EndsInComment (before ++ [c]) ↔ Text.endsLine c = false := by
            rw [Text.endsInComment_concat]
            exact ⟨fun hor => hor.elim hcode And.right, fun hc => Or.inr ⟨hopen, hc⟩⟩
          have hflag : (!Text.endsLine c) = true ↔ Text.EndsInComment (before ++ [c]) := by
            simp [hends]
          obtain ⟨gap, hgap⟩ := ih (p.next c) hflag
          refine ⟨c :: gap, hgap.cons ?_⟩
          cases hc : Text.endsLine c with
          | true => exact Or.inl (Text.isBlank_of_endsLine hc)
          | false => exact Or.inr (hends.mpr hc)
      · next hin =>
          have hclosed : ¬Text.EndsInComment before := fun hopen => hin (h.mpr hopen)
          have hbegins : Text.EndsInComment (before ++ [c]) ↔ c = '#' := by
            rw [Text.endsInComment_concat]
            exact or_iff_left fun hboth => hclosed hboth.1
          split
          · next hblank =>
              have hcode : c ≠ '#' := by
                rintro rfl
                exact absurd hblank (by decide)
              have hflag : false = true ↔ Text.EndsInComment (before ++ [c]) := by
                simp [hbegins, hcode]
              obtain ⟨gap, hgap⟩ := ih (p.next c) hflag
              exact ⟨c :: gap, hgap.cons (Or.inl hblank)⟩
          · split
            · next hcode =>
                have hflag : true = true ↔ Text.EndsInComment (before ++ [c]) :=
                  iff_of_true rfl (hbegins.mpr hcode)
                obtain ⟨gap, hgap⟩ := ih (p.next c) hflag
                exact ⟨c :: gap, hgap.cons (Or.inr (hbegins.mpr hcode))⟩
            · exact ⟨[], rfl, rfl, by simp, fun _ => by simpa using hclosed⟩

/-- No comment is open behind a piece. -/
theorem Skips.closed {before text gap : List Char} {p q : Position} {piece : Piece}
    (h : Skips before p text gap ⟨q, piece.text ++ piece.rest⟩) (hpiece : piece.IsMaximal) :
    ¬Text.EndsInComment (before ++ gap ++ piece.text) := by
  intro hcomment
  refine h.code (List.append_ne_nil_of_left_ne_nil hpiece.ne_nil _) ?_
  exact hcomment.of_append fun c hc => (hpiece.visible c hc).2

variable {cursor here after : Cursor} {token : Token}

theorem tokens_of_none (h : cursor.next? = (none, here)) :
    cursor.tokens = ⟨[], here.position.spanTo here.position⟩ := by
  rw [tokens]
  split <;> simp_all

theorem tokens_of_some (h : cursor.next? = (some token, after)) :
    cursor.tokens = { after.tokens with pending := token :: after.tokens.pending } := by
  rw [tokens]
  split <;> simp_all

/-- The next token of a text that does not begin in a comment is a piece behind a gap, or
the rest of the text is a gap. -/
theorem next?_cases {before : List Char} (text : List Char) (h : ¬Text.EndsInComment before) :
    (Skips before (.after .start before) text text ⟨.after .start (before ++ text), []⟩ ∧
      (Cursor.mk (.after .start before) text).next? =
        (none, ⟨.after .start (before ++ text), []⟩)) ∨
    ∃ (gap : List Char) (piece : Piece), piece.IsMaximal ∧
      Skips before (.after .start before) text gap
        ⟨.after .start (before ++ gap), piece.text ++ piece.rest⟩ ∧
      (Cursor.mk (.after .start before) text).next? =
        (some ⟨piece.lexeme, .behind (before ++ gap) piece.text⟩,
          ⟨.after .start (before ++ gap ++ piece.text), piece.rest⟩) := by
  obtain ⟨gap, hskips⟩ := skipFrom_skips (.after .start before) text
    (show false = true ↔ Text.EndsInComment before by simp [h])
  have hposition := hskips.position
  rw [← Position.after_append] at hposition
  unfold next? skip
  rcases hskip : skipFrom false (.after .start before) text with ⟨position, rest⟩
  rw [hskip] at hskips hposition
  obtain rfl : position = _ := hposition
  cases rest with
  | nil =>
      have hgap : text = gap := by simpa using hskips.split
      subst hgap
      exact Or.inl ⟨hskips, rfl⟩
  | cons c rest =>
      obtain ⟨hvisible, hcode⟩ := skipFrom_visible (congrArg Cursor.rest hskip)
      obtain ⟨hmaximal, hsplit⟩ := pieceAt_isMaximal hvisible hcode rest
      refine Or.inr ⟨gap, pieceAt c rest, hmaximal, hsplit ▸ hskips, ?_⟩
      dsimp only
      rw [← Position.after_append, Position.spanTo_after]

end Cursor

/-- Tokens segment a text that stands after some other text: each of them is a maximal
piece of it, they stand one behind the other, and a character is in a token exactly if it
is neither blank nor in a comment. -/
structure Tokens.Segments (ts : Tokens) (before text : List Char) : Prop where
  finish : ts.finish = .behind (before ++ text) []
  pieces : ∀ token ∈ ts.pending, ∃ (front : List Char) (piece : Cursor.Piece),
    text = front ++ (piece.text ++ piece.rest) ∧ piece.IsMaximal ∧
      token = ⟨piece.lexeme, .behind (before ++ front) piece.text⟩
  nonempty : ∀ token ∈ ts.pending, token.span.start < token.span.stop
  ordered : ts.pending.Pairwise fun first second => first.span.stop ≤ second.span.start
  exact : ∀ front c back, text = front ++ c :: back →
    ((∃ token ∈ ts.pending, token.span.Covers (before ++ front).length) ↔
      Text.isBlank c = false ∧ ¬Text.EndsInComment (before ++ front ++ [c]))

/-- A character of two joined texts is one of the first or one of the second. -/
theorem append_eq_append_cons {α : Type} {xs ys front back : List α} {c : α}
    (h : xs ++ ys = front ++ c :: back) :
    (∃ rest, xs = front ++ c :: rest) ∨ ∃ rest, front = xs ++ rest ∧ ys = rest ++ c :: back := by
  rcases List.append_eq_append_iff.mp h with ⟨rest, rfl, rfl⟩ | ⟨rest, rfl, hrest⟩
  · exact Or.inr ⟨rest, rfl, rfl⟩
  · cases rest with
    | nil => exact Or.inr ⟨[], by simp, by simpa using hrest.symm⟩
    | cons d rest =>
        obtain ⟨rfl, -⟩ := List.cons.inj hrest
        exact Or.inl ⟨rest, rfl⟩

namespace Tokens.Segments

variable {ts : Tokens} {before gap text : List Char} {piece : Cursor.Piece} {p q : Position}

theorem start_le (h : ts.Segments before text) :
    ∀ token ∈ ts.pending, before.length ≤ token.span.start := by
  intro token htoken
  obtain ⟨front, piece, -, -, rfl⟩ := h.pieces token htoken
  simp [Span.behind]

/-- A gap alone has no tokens. -/
theorem of_gap (hskips : Cursor.Skips before p text text ⟨q, []⟩) :
    Tokens.Segments ⟨[], .behind (before ++ text) []⟩ before text where
  finish := rfl
  pieces := by simp
  nonempty := by simp
  ordered := .nil
  exact := by
    intro front c back htext
    refine iff_of_false (by simp) ?_
    rintro ⟨hvisible, hcode⟩
    rcases hskips.passed front c back htext with hblank | hcomment
    · simp [hvisible] at hblank
    · exact hcode hcomment

/-- Behind a gap and a piece, a character is in the piece or in one of the tokens behind
it. -/
theorem exact_cons (hskips : Cursor.Skips before p text gap ⟨q, piece.text ++ piece.rest⟩)
    (hpiece : piece.IsMaximal) (h : ts.Segments (before ++ gap ++ piece.text) piece.rest)
    {front back : List Char} {c : Char} (htext : text = front ++ c :: back) :
    ((Span.behind (before ++ gap) piece.text).Covers (before ++ front).length ∨
        ∃ token ∈ ts.pending, token.span.Covers (before ++ front).length) ↔
      Text.isBlank c = false ∧ ¬Text.EndsInComment (before ++ front ++ [c]) := by
  have hothers : ∀ token ∈ ts.pending, token.span.Covers (before ++ front).length →
      (before ++ gap ++ piece.text).length ≤ (before ++ front).length :=
    fun token htoken hcovers => (h.start_le token htoken).trans hcovers.1
  rw [hskips.split] at htext
  rcases append_eq_append_cons htext with ⟨rest, hgap⟩ | ⟨front, rfl, hrest⟩
  · -- in the gap
    have hlength : front.length < gap.length := by simp [hgap]
    refine iff_of_false ?_ ?_
    · simp only [List.length_append] at hothers ⊢
      rintro (hcovers | ⟨token, htoken, hcovers⟩)
      · simp only [Span.Covers, Span.behind, List.length_append] at hcovers
        omega
      · have hstart := hothers token htoken hcovers
        omega
    · rintro ⟨hvisible, hcode⟩
      rcases hskips.passed front c rest hgap with hblank | hcomment
      · simp [hvisible] at hblank
      · exact hcode hcomment
  · rcases append_eq_append_cons hrest with ⟨rest, hpieces⟩ | ⟨front, rfl, hbehind⟩
    · -- in the piece, no character of which begins a comment
      have hlength : front.length < piece.text.length := by simp [hpieces]
      have hvisible := hpiece.visible
      rw [hpieces] at hvisible
      have hrun : ∀ d ∈ front ++ [c], d ≠ '#' := by
        intro d hd
        refine (hvisible d ?_).2
        rw [List.append_cons]
        exact List.mem_append_left rest hd
      refine iff_of_true (Or.inl ?_) ⟨(hvisible c (by simp)).1, fun hcomment => ?_⟩
      · simp only [Span.Covers, Span.behind, List.length_append]
        omega
      · refine hskips.code (List.append_ne_nil_of_left_ne_nil hpiece.ne_nil _) ?_
        exact Text.EndsInComment.of_append (by simpa using hcomment) hrun
    · -- behind the piece
      have hexact := h.exact front c back hbehind
      simp only [← List.append_assoc] at hexact ⊢
      rw [← hexact]
      refine or_iff_right fun hcovers => ?_
      simp only [Span.Covers, Span.behind, List.length_append] at hcovers
      omega

/-- A gap, a piece and what is segmented behind them. -/
theorem cons (hskips : Cursor.Skips before p text gap ⟨q, piece.text ++ piece.rest⟩)
    (hpiece : piece.IsMaximal) (h : ts.Segments (before ++ gap ++ piece.text) piece.rest) :
    Tokens.Segments { ts with
      pending := ⟨piece.lexeme, .behind (before ++ gap) piece.text⟩ :: ts.pending } before text where
  finish := by
    rw [hskips.split]
    simpa using h.finish
  pieces := by
    refine List.forall_mem_cons.mpr ⟨⟨gap, piece, hskips.split, hpiece, rfl⟩, fun token htoken => ?_⟩
    obtain ⟨front, other, hrest, hother, rfl⟩ := h.pieces token htoken
    refine ⟨gap ++ piece.text ++ front, other, ?_, hother, by simp⟩
    rw [hskips.split, hrest]
    simp
  nonempty := by
    refine List.forall_mem_cons.mpr ⟨?_, h.nonempty⟩
    have hlength := List.length_pos_iff.mpr hpiece.ne_nil
    simpa [Span.behind] using hlength
  ordered := by
    refine List.pairwise_cons.mpr ⟨fun token htoken => ?_, h.ordered⟩
    have hstart := h.start_le token htoken
    rwa [List.length_append] at hstart
  exact := by
    intro front c back htext
    simp only [List.mem_cons, or_and_right, exists_or, exists_eq_left]
    exact exact_cons hskips hpiece h htext

end Tokens.Segments

namespace Cursor

/-- What the n-th of several calls yields, counted from zero. -/
def call (cursor : Cursor) : Nat → Option Token × Cursor
  | 0 => cursor.next?
  | n + 1 => cursor.next?.2.call n

theorem call_end (p : Position) (n : Nat) : (Cursor.mk p []).call n = (none, ⟨p, []⟩) := by
  induction n with
  | zero => rfl
  | succ n ih => exact ih

theorem tokens_segments {before : List Char} (text : List Char) (h : ¬Text.EndsInComment before) :
    (Cursor.mk (.after .start before) text).tokens.Segments before text := by
  rcases next?_cases text h with ⟨hskips, hnext⟩ | ⟨gap, piece, hpiece, hskips, hnext⟩
  · rw [tokens_of_none hnext]
    have hfinish := Position.spanTo_after (before ++ text) []
    rw [List.append_nil] at hfinish
    rw [hfinish]
    exact .of_gap hskips
  · rw [tokens_of_some hnext]
    exact .cons hskips hpiece (tokens_segments piece.rest (hskips.closed hpiece))
termination_by text.length
decreasing_by exact next?_length_lt hnext

/-- The calls yield the tokens one by one, and after the last one they yield the same end
of the input again and again. -/
theorem call_tokens {before : List Char} (text : List Char) (h : ¬Text.EndsInComment before)
    (n : Nat) :
    ((Cursor.mk (.after .start before) text).call n).1 =
        (Cursor.mk (.after .start before) text).tokens.pending[n]? ∧
      ((Cursor.mk (.after .start before) text).tokens.pending.length ≤ n →
        ((Cursor.mk (.after .start before) text).call n).2 =
          ⟨.after .start (before ++ text), []⟩) := by
  induction n generalizing before text with
  | zero =>
      rcases next?_cases text h with ⟨-, hnext⟩ | ⟨gap, piece, -, -, hnext⟩
      · simp [call, hnext, tokens_of_none hnext]
      · simp [call, hnext, tokens_of_some hnext]
  | succ n ih =>
      rcases next?_cases text h with ⟨-, hnext⟩ | ⟨gap, piece, hpiece, hskips, hnext⟩
      · simp [call, hnext, tokens_of_none hnext, call_end]
      · have hsplit : before ++ text = before ++ gap ++ piece.text ++ piece.rest := by
          simp [hskips.split]
        rw [tokens_of_some hnext, hsplit]
        simpa [call, hnext] using ih piece.rest (hskips.closed hpiece)

end Cursor

end Reckon
