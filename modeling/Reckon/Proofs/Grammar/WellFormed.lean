import Reckon.Primitive
import Reckon.Proofs.Grammar.Lookahead
import Reckon.Proofs.Grammar.Symbols
import Reckon.Proofs.Grammar.Writing
import Reckon.Proofs.Syntax.Parts

/-!
# What is read from a text is well formed

The names in a form that is read from a text are words, its operators are single characters
that no word has, its prefix operators can be told from punctuation, its infix operators are
declared, and its prototype has the parameters and the precedence that its kind asks for
(`Tokens.FromText.item_isWellFormed`).  Nothing but the words is needed for that: the tokens of
a text are such words (`Lexeme.IsCut`), and what is true of the words of every node is true
everywhere (`Grammar.Spells.everywhere`).

So the symbols of callees can be trusted (`Grammar.reads_wellFormed`): code generation knows
functions by their symbols only, and different callees that forms mention never share one.
-/

namespace Reckon

/-- What is true of every node that is read: a text can hold it, except that a number may be
infinite. -/
def Expr.IsWellFormed (ops : OperatorTable) : Expr → Prop
  | number value => value.isNaN = false ∧ Binary64.isNegative value = false
  | node => node.CanBeWritten ops

namespace Item

/-- What is true of every form that is read. -/
def IsWellFormed (ops : OperatorTable) : Item → Prop
  | definition function =>
    function.prototype.CanBeWritten ∧ function.body.Everywhere (Expr.IsWellFormed ops)
  | declaration prototype => prototype.CanBeWritten
  | expression body => body.Everywhere (Expr.IsWellFormed ops)

/-- The callees that a form refers to: the one that it defines or declares, and those in its
body. -/
def mentions : Item → List Callee
  | definition function => function.prototype.callee :: function.body.mentions
  | declaration prototype => [prototype.callee]
  | expression body => body.mentions

end Item

namespace Grammar

variable {ops : OperatorTable}

/-- Words that a text is cut into make well-formed nodes. -/
theorem warrants_isWellFormed (ops : OperatorTable) :
    Warrants ops Lexeme.IsCut (Expr.IsWellFormed ops) where
  number _ hvalue := hvalue
  var _ hname := hname
  unary _ _ hop hopens hseparates := ⟨hop, hopens, hseparates⟩
  binary _ _ _ hop hdeclared := ⟨hop, hdeclared⟩
  call _ _ hname := hname
  cond _ _ _ := trivial
  loop _ _ _ _ _ hname := hname
  locals _ _ hne hnames := ⟨hne, hnames⟩

/-- A literal that asks for a precedence asks for one that definitions may have. -/
theorem AsksFor.inRange {value : Float} {precedence : Nat} (h : AsksFor value precedence) :
    OperatorTable.leastPrecedence ≤ precedence ∧
      precedence ≤ OperatorTable.greatestPrecedence := by
  have hscale := Binary64.scale_pos
  have hleast := h.least.trans_lt h.exceeded
  have hgreatest := h.reached.trans h.greatest
  exact ⟨Nat.lt_succ_iff.mp (Nat.lt_of_mul_lt_mul_right hleast),
    Nat.le_of_mul_le_mul_right hgreatest hscale⟩

/-- The word at the place of a precedence settles it: a literal asks for it, and any other word
leaves the default. -/
def Settles (word : Option Lexeme) (precedence : Nat) : Prop :=
  match word with
  | some (.number value) => AsksFor value precedence
  | _ => precedence = OperatorTable.defaultPrecedence

theorem SpellsPrecedence.inRange {words : List Lexeme} {precedence : Nat} {next : Option Lexeme}
    (h : SpellsPrecedence words precedence next) :
    OperatorTable.leastPrecedence ≤ precedence ∧
      precedence ≤ OperatorTable.greatestPrecedence := by
  cases h with
  | missing ends => decide
  | literal asks => exact asks.inRange

theorem SpellsPrecedence.settles {words : List Lexeme} {precedence : Nat} {next : Option Lexeme}
    (h : SpellsPrecedence words precedence next) : Settles (front words next) precedence := by
  cases h with
  | missing ends =>
      unfold Settles
      split
      · next value hnumber => exact absurd hnumber (ends value)
      · rfl
  | literal asks => exact asks

namespace SpellsPrototype

variable {words : List Lexeme} {p : Prototype} {next : Option Lexeme}

theorem canBeWritten (h : SpellsPrototype words p next) (hwords : ∀ word ∈ words, word.IsCut) :
    p.CanBeWritten := by
  cases h with
  | function =>
      simp only [List.forall_mem_cons, List.forall_mem_append, List.forall_mem_map] at hwords
      exact ⟨hwords.2.2.1, hwords.1⟩
  | unary =>
      simp only [List.forall_mem_cons] at hwords
      obtain ⟨-, hop, -, hparam, -⟩ := hwords
      exact ⟨List.forall_mem_singleton.mpr hparam, hop, rfl, rfl⟩
  | binary literal =>
      simp only [List.forall_mem_cons, List.forall_mem_append] at hwords
      obtain ⟨-, hop, -, -, hleft, hright, -⟩ := hwords
      obtain ⟨hleast, hgreatest⟩ := literal.inRange
      exact ⟨by simpa using ⟨hleft, hright⟩, hop, rfl, rfl, hleast, hgreatest⟩

theorem length_words (h : SpellsPrototype words p next) : 2 < words.length := by
  cases h with
  | function => simp
  | unary => simp
  | binary literal =>
      simp only [List.length_cons, List.length_append]
      omega

/-- The precedence of an operator stands behind its character. -/
theorem settles (h : SpellsPrototype words p next) {op : Char} {precedence : Nat}
    (hkind : p.kind = .binary op precedence) : Settles words[2]? precedence := by
  cases h with
  | function => cases hkind
  | unary => cases hkind
  | binary literal =>
      cases hkind
      have hsettles := literal.settles
      rename_i words left right
      cases words with
      | nil => exact hsettles
      | cons word others => exact hsettles

end SpellsPrototype

end Grammar

namespace Tokens

/-- The words of the tokens that are taken are the next ones. -/
theorem Takes.ahead {ts rest : Tokens} {words : List Lexeme} (h : ts.Takes words rest) {i : Nat}
    (hi : i < words.length) : (ts.ahead i).1 = words[i]? := by
  obtain ⟨tokens, rfl, hpending, -⟩ := h
  rw [List.length_map] at hi
  simp [Tokens.ahead, Tokens.lexeme?, Tokens.head?, Tokens.drop, hpending,
    List.getElem?_append_left hi]

namespace FromText

variable {ops : OperatorTable} {ts rest : Tokens} {item : Item}

theorem item_isWellFormed (h : ts.FromText) (hread : (Grammar.item ops ts).Yields item rest) :
    item.IsWellFormed ops := by
  obtain ⟨words, htakes, hspells⟩ := (Grammar.follows_item ts item rest).mp hread
  have hwords := h.areCut htakes
  cases hspells with
  | definition heads follows =>
      obtain ⟨-, hwords⟩ := List.forall_mem_cons.mp hwords
      obtain ⟨hheadWords, hbodyWords⟩ := List.forall_mem_append.mp hwords
      exact ⟨heads.canBeWritten hheadWords,
        follows.everywhere (Grammar.warrants_isWellFormed ops) hbodyWords⟩
  | declaration heads => exact heads.canBeWritten (List.forall_mem_cons.mp hwords).2
  | expression body => exact body.everywhere (Grammar.warrants_isWellFormed ops) hwords

/-- The precedence of an operator is what its form says behind the keyword, the kind and the
character. -/
theorem item_settles (hread : (Grammar.item ops ts).Yields item rest) {p : Prototype}
    (hp : p ∈ item.prototype?) {op : Char} {precedence : Nat}
    (hkind : p.kind = .binary op precedence) : Grammar.Settles (ts.ahead 3).1 precedence := by
  obtain ⟨words, htakes, hspells⟩ := (Grammar.follows_item ts item rest).mp hread
  cases hspells with
  | definition heads follows =>
      obtain rfl := Option.some.inj hp
      have hlength := heads.length_words
      have hsettles := heads.settles hkind
      rwa [htakes.ahead (by simp; omega), List.getElem?_cons_succ,
        List.getElem?_append_left hlength]
  | declaration heads =>
      obtain rfl := Option.some.inj hp
      have hlength := heads.length_words
      rw [htakes.ahead (by simp; omega), List.getElem?_cons_succ]
      exact heads.settles hkind
  | expression body => cases hp

end FromText

end Tokens

theorem Primitive.isName_symbol (primitive : Primitive) : Word.IsName primitive.symbol := by
  cases primitive <;> exact Word.isName_of_all (by decide) (by decide) (by decide)

theorem Prototype.CanBeWritten.occurs {p : Prototype} (h : p.CanBeWritten) : p.callee.Occurs := by
  obtain ⟨name, params, kind⟩ := p
  have hhead := h.head
  cases kind with
  | function => exact hhead
  | unary op => exact hhead.1
  | binary op precedence => exact hhead.1

/-- A node refers to what a text can name. -/
theorem Expr.IsWellFormed.occurs {ops : OperatorTable} {node : Expr}
    (h : node.IsWellFormed ops) : ∀ callee ∈ node.callee?, callee.Occurs := by
  intro callee hcallee
  cases node with
  | unary op operand =>
      cases hcallee
      exact h.1
  | binary op left right =>
      cases hcallee
      exact h.1
  | call name args =>
      cases hcallee
      exact h
  | _ => cases hcallee

/-- A form refers to what a text can name. -/
theorem Item.IsWellFormed.occurs {ops : OperatorTable} {item : Item} (h : item.IsWellFormed ops) :
    ∀ callee ∈ item.mentions, callee.Occurs := by
  cases item with
  | definition function =>
      exact List.forall_mem_cons.mpr
        ⟨h.1.occurs, h.2.mentions fun _ hnode => Expr.IsWellFormed.occurs hnode⟩
  | declaration prototype => exact List.forall_mem_singleton.mpr (Prototype.CanBeWritten.occurs h)
  | expression body =>
      exact Expr.Everywhere.mentions h fun _ hnode => Expr.IsWellFormed.occurs hnode

namespace Callee

/-- A callee that a form refers to which some text has been read as, against some table. -/
def IsMentioned (callee : Callee) : Prop :=
  ∃ ops ts rest item, Tokens.FromText ts ∧ (Grammar.item ops ts).Yields item rest ∧
    callee ∈ item.mentions

variable {callee : Callee}

theorem IsMentioned.occurs (h : callee.IsMentioned) : callee.Occurs := by
  obtain ⟨ops, ts, rest, item, htext, hread, hcallee⟩ := h
  exact (htext.item_isWellFormed hread).occurs callee hcallee

/-- The symbol of an operator is no name. -/
theorem Occurs.symbol_ne_name (h : callee.Occurs) (hop : ∀ name, callee ≠ .named name)
    {name : String} (hname : Word.IsName name) : callee.symbol ≠ name := by
  intro heq
  have hnamed : (Callee.named name).Occurs := hname
  exact hop name (h.symbol_inj hnamed heq)

/-- The symbol of an operator is not that of a bare expression. -/
theorem symbol_ne_anonymousName (hop : ∀ name, callee ≠ .named name) :
    callee.symbol ≠ Prototype.anonymousName := by
  intro heq
  have hchars := congrArg String.toList heq
  cases callee with
  | named name => exact hop name rfl
  | unary op => simp [toList_symbol_unary, Prototype.anonymousName] at hchars
  | binary op => simp [toList_symbol_binary, Prototype.anonymousName] at hchars

end Callee

/-- **What is read from a text is well formed, and symbols tell its callees apart.**  Names are
words, operators are characters of their own, prefix operators are no punctuation, infix
operators are declared, new names are some, numbers are numbers that are not negative, and
prototypes are as their kind asks for.  No form defines or declares the function that stands for
a bare expression.  Two callees that forms refer to share a symbol only if they are the same, and
the symbol of an operator is neither a name nor that of a primitive or of a bare expression. -/
theorem Grammar.reads_wellFormed :
    (∀ (ops : OperatorTable) (ts rest : Tokens) (item : Item), ts.FromText →
      (Grammar.item ops ts).Yields item rest →
        item.IsWellFormed ops ∧
          ∀ p ∈ item.prototype?, p.isAnonymous = false ∧
            ∀ op precedence, p.kind = .binary op precedence →
              Grammar.Settles (ts.ahead 3).1 precedence) ∧
    (∀ callee other : Callee, callee.IsMentioned → other.IsMentioned →
      callee.symbol = other.symbol → callee = other) ∧
    ∀ callee : Callee, callee.IsMentioned → (∀ name, callee ≠ .named name) →
      (∀ name, Word.IsName name → callee.symbol ≠ name) ∧
        (∀ primitive : Primitive, callee.symbol ≠ primitive.symbol) ∧
        callee.symbol ≠ Prototype.anonymousName := by
  refine ⟨fun ops ts rest item htext hread => ⟨htext.item_isWellFormed hread, fun p hp => ?_⟩,
    fun callee other h h' => h.occurs.symbol_inj h'.occurs, fun callee h hop => ?_⟩
  · have hoccurs := htext.prototype_occurs hread p hp
    exact ⟨Prototype.isAnonymous_of_occurs hoccurs,
      fun op precedence => Tokens.FromText.item_settles hread hp⟩
  · exact ⟨fun name => h.occurs.symbol_ne_name hop,
      fun primitive => h.occurs.symbol_ne_name hop primitive.isName_symbol,
      Callee.symbol_ne_anonymousName hop⟩

/-- The definition of an operator whose precedence is written with a fraction. -/
theorem Grammar.reads_wellFormed_fraction :
    let body : Expr := .binary '<' (.var "a") (.unary '!' (.var "b"))
    let item : Item := .definition ⟨⟨"binary|", ["a", "b"], .binary '|' 5⟩, body⟩
    let ts := Tokens.ofString "def binary| 5.7 (a b) a < !b"
    item.IsWellFormed .builtins ∧
      (ts.ahead 3).1 = some (.number (Numeral.read ['5', '.', '7'])) ∧
      Grammar.Settles (ts.ahead 3).1 5 ∧
      (Callee.unary '!').symbol ≠ (Callee.binary '|').symbol ∧
      (Callee.unary '!').symbol ≠ Primitive.sin.symbol := by
  intro body item ts
  have htext : ts.FromText := ⟨_, List.suffix_refl _⟩
  have hread : (Grammar.item .builtins ts).Yields item (ts.drop 12) := by
    refine ⟨by decide +kernel, ?_⟩
    set_option maxRecDepth 10000 in
    with_unfolding_all rfl
  have hmentions (callee : Callee) (hcallee : callee ∈ item.mentions) : callee.IsMentioned :=
    ⟨_, _, _, _, htext, hread, hcallee⟩
  have hprefix := hmentions (.unary '!') (by decide)
  have hinfix := hmentions (.binary '|') (by decide)
  obtain ⟨hreads, hinj, hoperators⟩ := reads_wellFormed
  obtain ⟨hitem, hprototype⟩ := hreads .builtins ts _ item htext hread
  refine ⟨hitem, by decide +kernel, (hprototype _ rfl).2 '|' 5 rfl, fun heq => ?_, ?_⟩
  · cases hinj _ _ hprefix hinfix heq
  · exact (hoperators _ hprefix (by simp)).2.1 .sin

end Reckon
