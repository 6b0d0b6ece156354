import Reckon.Proofs.Grammar.Items
import Reckon.Proofs.Token.Cutting

/-!
# What a text can name

The names that a text is cut into are words, and the characters of operators are
in no word (`Cursor.lexemes_areCut`).  So a function that a text names and an
operator never have the same symbol (`Callee.Occurs.symbol_inj`), although symbols
are just strings.
-/

namespace Reckon

/-- The lexemes that a text can be cut into. -/
def Lexeme.Occurs : Lexeme → Prop
  | .number _ => True
  | word => word.IsLegible

/-- The lexemes that a text is cut into.  A numeral reads as a number that is not negative. -/
def Lexeme.IsCut : Lexeme → Prop
  | .number value => value.isNaN = false ∧ Binary64.isNegative value = false
  | word => word.IsLegible

theorem Lexeme.IsCut.occurs {word : Lexeme} (h : word.IsCut) : word.Occurs := by
  cases word with
  | number value => trivial
  | keyword word => exact h
  | identifier name => exact h
  | symbol c => exact h

namespace Cursor

theorem pieceAt_isCut {c : Char} (hvisible : Text.isBlank c = false) (hcode : c ≠ '#')
    (rest : List Char) : (pieceAt c rest).lexeme.IsCut := by
  unfold pieceAt
  split
  · next hletter =>
      unfold Word.lexeme
      dsimp only
      split
      · trivial
      · next hfree =>
          refine ⟨⟨c, rest.takeWhile Word.isWordChar, ?_, hletter, ?_⟩, hfree⟩
          · exact String.toList_ofList
          · exact fun d hd => List.mem_takeWhile_imp hd
  · next hletter =>
      split
      · exact Numeral.read_isNumber _
      · next hnumeral =>
          exact ⟨hvisible, hcode, Bool.eq_false_iff.mpr hletter, Bool.eq_false_iff.mpr hnumeral⟩

theorem next?_isCut {cursor after : Cursor} {token : Token}
    (h : cursor.next? = (some token, after)) : token.lexeme.IsCut := by
  simp only [next?, skip] at h
  split at h
  · simp at h
  · next c rest hrest =>
      obtain ⟨hvisible, hcode⟩ := skipFrom_visible hrest
      obtain rfl := Option.some.inj (Prod.mk.inj h).1
      exact pieceAt_isCut hvisible hcode rest

/-- A text is cut into names, keywords, numbers and symbols. -/
theorem lexemes_areCut (cursor : Cursor) : ∀ word ∈ cursor.lexemes, word.IsCut := by
  rcases h : cursor.next? with ⟨found, after⟩
  cases found with
  | none =>
      have hnone : cursor.lexemes = [] := by
        unfold lexemes
        rw [tokens]
        split <;> simp_all
      simp [hnone]
  | some token =>
      rw [lexemes_next h]
      exact List.forall_mem_cons.mpr ⟨next?_isCut h, lexemes_areCut after⟩
termination_by cursor.rest.length
decreasing_by exact next?_length_lt h

end Cursor

/-- Tokens that some text ends with. -/
def Tokens.FromText (ts : Tokens) : Prop :=
  ∃ text, ts.pending <:+ (Tokens.ofChars text).pending

theorem Tokens.FromText.areCut {ts rest : Tokens} {words : List Lexeme} (h : ts.FromText)
    (htakes : ts.Takes words rest) : ∀ word ∈ words, word.IsCut := by
  intro word hword
  obtain ⟨text, before, htext⟩ := h
  obtain ⟨tokens, rfl, hpending, -⟩ := htakes
  apply Cursor.lexemes_areCut (Cursor.ofChars text)
  change word ∈ (Tokens.ofChars text).pending.map Token.lexeme
  rw [← htext, hpending, List.map_append, List.map_append]
  exact List.mem_append_right _ (List.mem_append_left _ hword)

theorem Tokens.FromText.occurs {ts rest : Tokens} {words : List Lexeme} (h : ts.FromText)
    (htakes : ts.Takes words rest) : ∀ word ∈ words, word.Occurs :=
  fun word hword => (h.areCut htakes word hword).occurs

namespace Callee

/-- The callees that a text can name. -/
def Occurs : Callee → Prop
  | .named name => Word.IsName name
  | .unary op => IsSymbol op
  | .binary op => IsSymbol op

theorem toList_symbol_unary (op : Char) :
    (Callee.unary op).symbol.toList = ['u', 'n', 'a', 'r', 'y', op] := by
  simp [symbol, toString]

theorem toList_symbol_binary (op : Char) :
    (Callee.binary op).symbol.toList = ['b', 'i', 'n', 'a', 'r', 'y', op] := by
  simp [symbol, toString]

/-- A word has no character of an operator. -/
theorem not_mem_name {name : String} {op : Char} (h : Word.IsName name) (hop : IsSymbol op) :
    op ∉ name.toList := by
  obtain ⟨c, rest, htext, hletter, hrest⟩ := h.spelled
  rw [htext]
  intro hmem
  have hword := hop.breaks.1
  rcases List.mem_cons.mp hmem with rfl | hmem
  · rw [hop.other] at hletter
    cases hletter
  · rw [hrest op hmem] at hword
    cases hword

/-- **A symbol tells which callee it is of**, among those that a text can name. -/
theorem Occurs.symbol_inj {callee other : Callee} (h : callee.Occurs) (h' : other.Occurs)
    (hsymbol : callee.symbol = other.symbol) : callee = other := by
  have hchars := congrArg String.toList hsymbol
  cases callee with
  | named name =>
      cases other with
      | named name' => exact congrArg Callee.named hsymbol
      | unary op =>
          have hmem : op ∈ (Callee.named name).symbol.toList := by
            simp [hchars, toList_symbol_unary]
          exact absurd hmem (not_mem_name h h')
      | binary op =>
          have hmem : op ∈ (Callee.named name).symbol.toList := by
            simp [hchars, toList_symbol_binary]
          exact absurd hmem (not_mem_name h h')
  | unary op =>
      cases other with
      | named name =>
          have hmem : op ∈ (Callee.named name).symbol.toList := by
            simp [← hchars, toList_symbol_unary]
          exact absurd hmem (not_mem_name h' h)
      | unary op' => simpa [toList_symbol_unary] using hchars
      | binary op' => simp [toList_symbol_unary, toList_symbol_binary] at hchars
  | binary op =>
      cases other with
      | named name =>
          have hmem : op ∈ (Callee.named name).symbol.toList := by
            simp [← hchars, toList_symbol_binary]
          exact absurd hmem (not_mem_name h' h)
      | unary op' => simp [toList_symbol_unary, toList_symbol_binary] at hchars
      | binary op' => simpa [toList_symbol_binary] using hchars

end Callee

/-- No text names the function that stands for a bare expression. -/
theorem Prototype.isAnonymous_of_occurs {p : Prototype} (h : p.callee.Occurs) :
    p.isAnonymous = false := by
  by_contra hanonymous
  rw [Bool.not_eq_false, Prototype.isAnonymous, Bool.and_eq_true, beq_iff_eq, beq_iff_eq]
    at hanonymous
  obtain ⟨hkind, hname⟩ := hanonymous
  have hcallee : p.callee = .named anonymousName := by
    simp [Prototype.callee, hkind, hname]
  have hword : Word.IsName anonymousName := by
    rw [hcallee] at h
    exact h
  obtain ⟨c, rest, htext, hletter, -⟩ := hword.spelled
  obtain rfl : '_' = c := (List.cons.inj htext).1
  cases hletter

namespace Grammar

theorem SpellsPrototype.occurs {words : List Lexeme} {p : Prototype} {next : Option Lexeme}
    (h : SpellsPrototype words p next) (hwords : ∀ word ∈ words, word.Occurs) :
    p.callee.Occurs := by
  cases h with
  | function => exact hwords _ List.mem_cons_self
  | unary => exact hwords _ (List.mem_cons_of_mem _ List.mem_cons_self)
  | binary literal => exact hwords _ (List.mem_cons_of_mem _ List.mem_cons_self)

end Grammar

/-- The prototype that a form defines or declares. -/
def Item.prototype? : Item → Option Prototype
  | .definition f => some f.prototype
  | .declaration p => some p
  | .expression _ => none

/-- What is read from a text defines and declares what a text can name. -/
theorem Tokens.FromText.prototype_occurs {ops : OperatorTable} {ts rest : Tokens} {item : Item}
    (h : ts.FromText) (hread : (Grammar.item ops ts).Yields item rest) :
    ∀ p ∈ item.prototype?, p.callee.Occurs := by
  obtain ⟨words, htakes, hspells⟩ := (Grammar.follows_item ts item rest).mp hread
  have hwords := h.occurs htakes
  intro p hp
  cases hspells with
  | definition heads follows =>
      obtain rfl := Option.some.inj hp
      apply heads.occurs
      intro word hword
      apply hwords
      simp [hword]
  | declaration heads =>
      obtain rfl := Option.some.inj hp
      exact heads.occurs fun word hword => hwords word (List.mem_cons_of_mem _ hword)
  | expression body => cases hp

end Reckon
