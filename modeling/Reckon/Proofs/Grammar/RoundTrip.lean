import Reckon.Proofs.Grammar.Writing

/-!
# Reading what was written

Top-level forms are written as text: a keyword and the text of the prototype,
the words of a body with a blank between any two, and a semicolon between forms.
The text is cut into the words that the forms are written with, and so it reads as
the same forms (`Grammar.program_source`).
-/

namespace Reckon

/-- The text of an expression. -/
def Expr.source (e : Expr) : String := sentence e.words

/-- The text of a top-level form. -/
def Item.source : Item → String
  | definition function => s!"def {function.prototype.display} {function.body.source}"
  | declaration prototype => s!"extern {prototype.display}"
  | expression body => body.source

/-- The text of top-level forms. -/
def Grammar.source (items : List Item) : String := " ; ".intercalate (items.map Item.source)

theorem Expr.cuts_source {ops : OperatorTable} {e : Expr} (h : e.Everywhere (CanBeWritten ops)) :
    Cuts e.source.toList e.words :=
  cuts_sentence (legible_words h)

namespace Prototype

theorem cuts_toString (n : Nat) : Cuts (toString n).toList [.number (Binary64.ofDecimal n 0)] := by
  have hspells := Numeral.positional_spells n 0
  have hcuts := Cuts.numeral hspells.nonempty hspells.chars
  have htext : (toString n).toList = Binary64.positional n 0 := by
    rw [Numeral.positional_zero]
    simp [Binary64.digitChars]
  rw [Numeral.read_of_spells hspells] at hcuts
  rw [htext]
  exact hcuts

theorem cuts_params {params : List String} (h : ∀ param ∈ params, Word.IsName param) :
    Cuts ('(' :: ((" ".intercalate params).toList ++ [')']))
      (enclosed (params.map .identifier)) := by
  have htext : sentence (params.map .identifier) = " ".intercalate params := by
    simp [sentence, Function.comp_def, Lexeme.text]
  have hnames : Cuts (" ".intercalate params).toList (params.map .identifier) := by
    rw [← htext]
    apply cuts_sentence
    intro word hword
    obtain ⟨param, hparam, rfl⟩ := List.mem_map.mp hword
    exact h param hparam
  have hclosing : Cuts [')'] [.symbol ')'] := .symbol (by decide) .nil
  exact .symbol (by decide) (hnames.append ⟨by decide, by decide⟩ hclosing)

/-- **The text of a prototype is cut into its words.** -/
theorem cuts_display {p : Prototype} (h : p.CanBeWritten) : Cuts p.display.toList p.words := by
  obtain ⟨name, params, kind⟩ := p
  have hparams := cuts_params h.params
  have hhead := h.head
  cases kind with
  | function =>
      change Word.IsName name at hhead
      have hcuts := hhead.cuts.append ⟨by decide, by decide⟩ hparams
      simpa [display, words, toString] using hcuts
  | unary op =>
      obtain ⟨hop, -⟩ := hhead
      have hcuts := (Keyword.unary.cuts).append hop.breaks (.symbol hop hparams)
      simpa [display, words, Keyword.text, toString] using hcuts
  | binary op precedence =>
      obtain ⟨hop, -⟩ := hhead
      have hliteral := (cuts_toString precedence).append ⟨by decide, by decide⟩ hparams.blank
      have hcuts := (Keyword.binary.cuts).append hop.breaks (.symbol hop hliteral.blank)
      simpa [display, words, Keyword.text, toString] using hcuts

end Prototype

namespace Item

/-- The text of a top-level form is cut into its words. -/
theorem cuts_source {ops : OperatorTable} {item : Item} (h : item.CanBeWritten ops) :
    Cuts item.source.toList item.words := by
  cases item with
  | definition function =>
      obtain ⟨hprototype, hbody⟩ := h
      have hboth := (Prototype.cuts_display hprototype).append ⟨by decide, by decide⟩
        (Expr.cuts_source hbody).blank
      have hcuts := (Keyword.definition.cuts).append ⟨by decide, by decide⟩ hboth.blank
      simpa [source, words, Keyword.text, toString] using hcuts
  | declaration prototype =>
      have hcuts := (Keyword.declaration.cuts).append ⟨by decide, by decide⟩
        (Prototype.cuts_display h).blank
      simpa [source, words, Keyword.text, toString] using hcuts
  | expression body => exact Expr.cuts_source h

end Item

namespace Grammar

variable {ops : OperatorTable} {items : List Item}

theorem cuts_source (h : ∀ item ∈ items, item.CanBeWritten ops) :
    Cuts (source items).toList ([.symbol ';'].intercalate (items.map Item.words)) := by
  have hsep {text : List Char} {words : List Lexeme} (h : Cuts text words) :
      Cuts (' ' :: [';', ' '] ++ text) ([.symbol ';'] ++ words) :=
    (Cuts.symbol (by decide) h.blank).blank
  have hcuts : Cuts ([' ', ';', ' '].intercalate (items.map fun item => item.source.toList))
      ([.symbol ';'].intercalate (items.map Item.words)) :=
    .intercalate hsep fun item hitem => Item.cuts_source (h item hitem)
  simpa [source, Function.comp_def] using hcuts

/-- **Written forms are read back.** -/
theorem program_source (hspares : ops.SparesPunctuation)
    (hitems : ∀ item ∈ items, item.CanBeWritten ops) :
    program ops (.ofString (source items)) = .ok items := by
  have hstop : Stops [] := fun c hc => nomatch hc
  obtain ⟨q, hq⟩ := cuts_source hitems Position.start [] hstop
  rw [List.append_nil, Cursor.lexemes_end, List.append_nil] at hq
  have htakes : (Tokens.ofString (source items)).Takes
      ([.symbol ';'].intercalate (items.map Item.words))
      ⟨[], (Tokens.ofString (source items)).finish⟩ :=
    ⟨_, hq, (List.append_nil _).symm, rfl⟩
  exact program_of_takes hspares hitems htakes rfl

/-- An infix operator, a definition of it, and a use of it under prefix operators
that are written like punctuation. -/
def writtenItems : List Item :=
  [.definition ⟨⟨"binary|", ["a", "b"], .binary '|' 5⟩,
      .cond (.var "a") (.number 1) (.unary ')' (.var "b"))⟩,
    .expression (.unary ';' (.binary '|' (.call "f" [.unary ')' (.var "x")]) (.number 0.5)))]

theorem canBeWritten_writtenItems {ops : OperatorTable} (hdeclared : ops.Declares '|') :
    ∀ item ∈ writtenItems, item.CanBeWritten ops := by
  have hnames : ∀ name ∈ ["a", "b", "f", "x"], Word.IsName name := by
    intro name hname
    simp only [List.mem_cons, List.not_mem_nil, or_false] at hname
    rcases hname with rfl | rfl | rfl | rfl <;>
      exact ⟨⟨_, [], rfl, by decide, by simp⟩, by decide⟩
  have hbar : IsSymbol '|' := by decide
  have hclosing : IsSymbol ')' := by decide
  have hsemicolon : IsSymbol ';' := by decide
  have hone : (Expr.number 1).CanBeWritten ops := ⟨by decide, by decide⟩
  have hhalf : (Expr.number 0.5).CanBeWritten ops := ⟨by decide, by decide⟩
  intro item hitem
  simp only [writtenItems, List.mem_cons, List.not_mem_nil, or_false] at hitem
  rcases hitem with rfl | rfl
  · refine ⟨⟨fun param hparam => hnames param ?_, hbar, rfl, rfl, by decide⟩,
      trivial, hnames _ (by simp), hone, ⟨hclosing, by decide⟩, hnames _ (by simp)⟩
    simp only [List.mem_cons, List.not_mem_nil, or_false] at hparam ⊢
    tauto
  · exact ⟨⟨hsemicolon, by decide⟩, ⟨hbar, hdeclared⟩,
      ⟨hnames _ (by simp), ⟨⟨hclosing, by decide⟩, hnames _ (by simp)⟩, trivial⟩, hhalf⟩

theorem program_source_punctuation :
    (⟨⟨[('|', 5)]⟩⟩ : OperatorTable).SparesPunctuation ∧
      (∀ item ∈ writtenItems, item.CanBeWritten ⟨⟨[('|', 5)]⟩⟩) ∧
      program ⟨⟨[('|', 5)]⟩⟩ (.ofString
        "def binary| 5 (a b) ( if a then 1 else ( ) b ) ) ; ( ; ( ( f ( ( ) x ) ) ) | 0.5 ) )") =
        .ok writtenItems := by
  have hspares : (⟨⟨[('|', 5)]⟩⟩ : OperatorTable).SparesPunctuation :=
    ⟨by decide, by decide, by decide, by decide⟩
  have hitems : ∀ item ∈ writtenItems, item.CanBeWritten ⟨⟨[('|', 5)]⟩⟩ :=
    canBeWritten_writtenItems ⟨5, by decide⟩
  have hsource : source writtenItems =
      "def binary| 5 (a b) ( if a then 1 else ( ) b ) ) ; ( ; ( ( f ( ( ) x ) ) ) | 0.5 ) )" := by
    decide +kernel
  refine ⟨hspares, hitems, ?_⟩
  rw [← hsource]
  exact program_source hspares hitems

end Grammar

end Reckon
