import Reckon.Proofs.Grammar.Declared
import Reckon.Proofs.Token.Cutting

/-!
# Writing forms

The words that an expression is written with, everything but numbers and names
in parentheses, spell that expression (`Expr.words_spell`), and so do the words of
a prototype and of a top-level form (`Item.words_spell`).  Parentheses make this
independent of how the operators bind.  What the words depend on are the
operators that are declared: a word that closes or separates something must not
be one of them.
-/

namespace Reckon

/-- Words in parentheses. -/
def enclosed (words : List Lexeme) : List Lexeme := .symbol '(' :: (words ++ [.symbol ')'])

section Legible

/-- A text can hold each of some words. -/
def Legible (words : List Lexeme) : Prop := ∀ word ∈ words, word.IsLegible

variable {word : Lexeme} {words words' : List Lexeme}

@[simp] theorem legible_nil : Legible [] := List.forall_mem_nil _

@[simp] theorem legible_cons : Legible (word :: words) ↔ word.IsLegible ∧ Legible words :=
  List.forall_mem_cons

@[simp] theorem legible_append : Legible (words ++ words') ↔ Legible words ∧ Legible words' :=
  List.forall_mem_append

@[simp] theorem legible_keyword (word : Keyword) : (Lexeme.keyword word).IsLegible := trivial

@[simp] theorem legible_identifier {name : String} :
    (Lexeme.identifier name).IsLegible ↔ Word.IsName name := Iff.rfl

@[simp] theorem legible_symbol {c : Char} : (Lexeme.symbol c).IsLegible ↔ IsSymbol c := Iff.rfl

@[simp] theorem legible_enclosed : Legible (enclosed words) ↔ Legible words := by
  have hopening : IsSymbol '(' := by decide
  have hclosing : IsSymbol ')' := by decide
  simp [enclosed, hopening, hclosing]

theorem legible_intercalate {sep : List Lexeme} {parts : List (List Lexeme)} (hsep : Legible sep)
    (hparts : ∀ part ∈ parts, Legible part) : Legible (sep.intercalate parts) := by
  induction parts with
  | nil => exact List.forall_mem_nil _
  | cons part parts ih =>
      obtain ⟨hpart, hothers⟩ := List.forall_mem_cons.mp hparts
      cases parts with
      | nil => simpa using hpart
      | cons other others =>
          rw [List.intercalate_cons_cons]
          exact legible_append.mpr ⟨legible_append.mpr ⟨hpart, hsep⟩, ih hothers⟩

end Legible

namespace Expr

mutual

/-- The words of an expression. -/
def words : Expr → List Lexeme
  | number value => [.number value]
  | var name => [.identifier name]
  | unary op operand => enclosed (.symbol op :: operand.words)
  | binary op left right => enclosed (left.words ++ .symbol op :: right.words)
  | call name args =>
    enclosed (.identifier name :: enclosed ([.symbol ','].intercalate (argumentWords args)))
  | cond condition thenBranch elseBranch =>
    enclosed (.keyword .ifWord :: (condition.words ++ .keyword .thenWord :: (thenBranch.words ++
      .keyword .elseWord :: elseBranch.words)))
  | loop name start finish step body =>
    enclosed (.keyword .forWord :: .identifier name :: .symbol '=' :: (start.words ++
      .symbol ',' :: (finish.words ++ (optionalWords ',' step ++
        .keyword .inWord :: body.words))))
  | locals bindings body =>
    enclosed (.keyword .varWord :: ([.symbol ','].intercalate (bindingWords bindings) ++
      .keyword .inWord :: body.words))

/-- The words of each argument. -/
def argumentWords : List Expr → List (List Lexeme)
  | [] => []
  | arg :: args => arg.words :: argumentWords args

/-- The words of an expression that may be missing, after a symbol that announces
it. -/
def optionalWords (announce : Char) : Option Expr → List Lexeme
  | none => []
  | some e => .symbol announce :: e.words

/-- The words of each binding. -/
def bindingWords : List (String × Option Expr) → List (List Lexeme)
  | [] => []
  | (name, value) :: bindings =>
    (.identifier name :: optionalWords '=' value) :: bindingWords bindings

end

/-- What an expression needs so that it can be written, apart from its parts. -/
def CanBeWritten (ops : OperatorTable) : Expr → Prop
  | number value => value.isFinite = true ∧ Binary64.isNegative value = false
  | var name => Word.IsName name
  | unary op _ => IsSymbol op ∧ op ≠ '(' ∧ op ≠ ','
  | binary op _ _ => IsSymbol op ∧ ops.Declares op
  | call name _ => Word.IsName name
  | cond _ _ _ => True
  | loop name _ _ _ _ => Word.IsName name
  | locals bindings _ => bindings ≠ [] ∧ ∀ binding ∈ bindings, Word.IsName binding.1

end Expr

/-- No operator is written like a word that closes or separates something. -/
structure OperatorTable.SparesPunctuation (ops : OperatorTable) : Prop where
  opening : ops.precedence? '(' = none
  closing : ops.precedence? ')' = none
  comma : ops.precedence? ',' = none
  semicolon : ops.precedence? ';' = none

namespace Grammar

variable {ops : OperatorTable} {words words' : List Lexeme} {e left right : Expr}
  {next : Option Lexeme}

theorem ends_keyword (word : Keyword) : Ends ops (some (.keyword word)) := by
  intro op hop
  cases hop

theorem ends_symbol {c : Char} (h : ops.precedence? c = none) : Ends ops (some (.symbol c)) := by
  intro op hop
  obtain rfl : c = op := by simpa using hop
  exact h

/-- An operand is an expression by itself. -/
theorem Spells.of_operand (h : SpellsOperand ops words e next) (hends : Ends ops next) :
    Spells ops words e next := by
  have htree : (OperatorTree.leaf e).Grouped := trivial
  exact .grouped (.last h hends) htree

/-- Two operands with an operator between them are an expression. -/
theorem Spells.of_operands {op : Char} (hdeclared : ops.Declares op)
    (hleft : SpellsOperand ops words left (some (.symbol op)))
    (hright : SpellsOperand ops words' right next) (hends : Ends ops next) :
    Spells ops (words ++ .symbol op :: words') (.binary op left right) next := by
  obtain ⟨precedence, hprecedence⟩ := hdeclared
  have htree : (OperatorTree.node op precedence (.leaf left) (.leaf right)).Grouped := by
    simp [OperatorTree.Grouped, OperatorTree.root?]
  exact .grouped (.link hleft hprecedence (.last hright hends)) htree

/-- Before some words a part ends: they open no call and are no operator. -/
def Closes (ops : OperatorTable) (next : Option Lexeme) : Prop :=
  next ≠ some (.symbol '(') ∧ Ends ops next

theorem closes_end : Closes ops none := by
  constructor
  · simp
  · intro op hop
    cases hop

theorem closes_keyword (word : Keyword) : Closes ops (some (.keyword word)) := by
  refine ⟨?_, ends_keyword word⟩
  intro h
  cases h

theorem closes_symbol {c : Char} (hopens : c ≠ '(') (h : ops.precedence? c = none) :
    Closes ops (some (.symbol c)) := by
  refine ⟨?_, ends_symbol h⟩
  intro hc
  exact hopens (by simpa using hc)

/-- Words that are a primary expression wherever they do not stand before an
opening parenthesis. -/
def SelfContained (ops : OperatorTable) (words : List Lexeme) (e : Expr) : Prop :=
  ∀ next, next ≠ some (.symbol '(') → SpellsPrimary ops words e next

theorem SelfContained.operand (h : SelfContained ops words e)
    (hnext : next ≠ some (.symbol '(')) : SpellsOperand ops words e next :=
  .primary (h next hnext)

theorem SelfContained.spells (h : SelfContained ops words e) (hcloses : Closes ops next) :
    Spells ops words e next :=
  .of_operand (h.operand hcloses.1) hcloses.2

theorem selfContained_enclosed (h : Spells ops words e (some (.symbol ')'))) :
    SelfContained ops (enclosed words) e :=
  fun _ _ => .paren h

end Grammar

namespace Expr

open Grammar

variable {ops : OperatorTable} {e : Expr} {next : Option Lexeme}

/-- The words of an expression begin with no closing parenthesis. -/
theorem words_eq_cons (e : Expr) :
    ∃ word words, e.words = word :: words ∧ word ≠ .symbol ')' ∧ word ≠ .symbol ';' := by
  cases e <;> exact ⟨_, _, rfl, by simp, by simp⟩

theorem arguments_spell {args : List Expr} (hspares : ops.SparesPunctuation) (hne : args ≠ [])
    (hargs : ∀ arg ∈ args, SelfContained ops arg.words arg) :
    SpellsArguments ops ([.symbol ','].intercalate (argumentWords args)) args
      (some (.symbol ')')) := by
  induction args with
  | nil => exact absurd rfl hne
  | cons arg args ih =>
      obtain ⟨harg, hothers⟩ := List.forall_mem_cons.mp hargs
      cases args with
      | nil =>
          have hlast := harg.spells (closes_symbol (by decide) hspares.closing)
          simpa [argumentWords] using SpellsArguments.last hlast
      | cons other others =>
          have hfirst := harg.spells (closes_symbol (by decide) hspares.comma)
          have hmore := SpellsArguments.more hfirst (ih (by simp) hothers)
          simpa [argumentWords, List.intercalate_cons_cons] using hmore

theorem optional_spells {announce : Char} {value? : Option Expr}
    (hvalue : ∀ value ∈ value?, SelfContained ops value.words value)
    (hnext : next ≠ some (.symbol announce)) (hcloses : Closes ops next) :
    SpellsOptional ops announce (optionalWords announce value?) value? next := by
  cases value? with
  | none => exact .missing hnext
  | some value => exact .present ((hvalue value rfl).spells hcloses)

theorem bindings_spell {bindings : List (String × Option Expr)}
    (hspares : ops.SparesPunctuation) (hne : bindings ≠ [])
    (hbindings : ∀ binding ∈ bindings, ∀ value ∈ binding.2, SelfContained ops value.words value) :
    SpellsBindings ops ([.symbol ','].intercalate (bindingWords bindings)) bindings
      (some (.keyword .inWord)) := by
  induction bindings with
  | nil => exact absurd rfl hne
  | cons binding bindings ih =>
      obtain ⟨name, value?⟩ := binding
      obtain ⟨hvalue, hothers⟩ := List.forall_mem_cons.mp hbindings
      cases bindings with
      | nil =>
          have hinitially : SpellsOptional ops '=' _ value? _ :=
            optional_spells hvalue (by simp) (closes_keyword .inWord)
          simpa [bindingWords] using SpellsBindings.last hinitially (by simp)
      | cons other others =>
          have hinitially : SpellsOptional ops '=' _ value? _ :=
            optional_spells hvalue (by simp) (closes_symbol (by decide) hspares.comma)
          have hmore := @SpellsBindings.more _ name _ _ _ _ _ hinitially (ih (by simp) hothers)
          simpa [bindingWords, List.intercalate_cons_cons] using hmore

/-- **The words of an expression spell it.** -/
theorem words_spell (hspares : ops.SparesPunctuation) (h : e.Everywhere (CanBeWritten ops)) :
    SelfContained ops e.words e := by
  have hclosing : Closes ops (some (.symbol ')')) := closes_symbol (by decide) hspares.closing
  have hcomma : Closes ops (some (.symbol ',')) := closes_symbol (by decide) hspares.comma
  induction e using Expr.induction with
  | number value => exact fun _ _ => .number
  | var name => exact fun _ hnext => .var hnext
  | unary op operand ih =>
      obtain ⟨⟨-, hopens, hseparates⟩, hoperand⟩ := h
      have hinner := SpellsOperand.unary hopens hseparates ((ih hoperand).operand hclosing.1)
      exact selfContained_enclosed (.of_operand hinner hclosing.2)
  | binary op left right ihl ihr =>
      obtain ⟨⟨-, hdeclared⟩, hleft, hright⟩ := h
      -- the operator is no opening parenthesis because that one is not declared
      have hop : some (.symbol op) ≠ some (Lexeme.symbol '(') := by
        rintro hop
        obtain rfl : op = '(' := by simpa using hop
        obtain ⟨precedence, hprecedence⟩ := hdeclared
        rw [hspares.opening] at hprecedence
        cases hprecedence
      exact selfContained_enclosed (.of_operands hdeclared ((ihl hleft).operand hop)
        ((ihr hright).operand hclosing.1) hclosing.2)
  | call name args ih =>
      have hargs : ∀ arg ∈ args, SelfContained ops arg.words arg := fun arg harg =>
        ih arg harg (everywhereIn_iff.mp h.2 arg harg)
      have hinner : SelfContained ops
          (.identifier name :: enclosed ([.symbol ','].intercalate (argumentWords args)))
          (.call name args) := by
        intro next hnext
        cases args with
        | nil => exact .callNothing
        | cons arg others =>
            refine .call ?_ (arguments_spell hspares (by simp) hargs)
            obtain ⟨word, words, hwords, hword, -⟩ := arg.words_eq_cons
            cases others <;> simp [argumentWords, List.intercalate_cons_cons, hwords, hword]
      exact selfContained_enclosed (hinner.spells hclosing)
  | cond condition thenBranch elseBranch ihc iht ihe =>
      obtain ⟨-, hcondition, hthen, helse⟩ := h
      have hinner := SpellsPrimary.cond ((ihc hcondition).spells (closes_keyword .thenWord))
        ((iht hthen).spells (closes_keyword .elseWord)) ((ihe helse).spells hclosing)
      exact selfContained_enclosed (.of_operand (.primary hinner) hclosing.2)
  | loop name start finish step body ihs ihf ihstep ihb =>
      obtain ⟨-, hstart, hfinish, hstep, hbody⟩ := h
      have hsteps : SpellsOptional ops ',' (optionalWords ',' step) step
          (some (.keyword .inWord)) := by
        refine optional_spells (fun value hvalue => ?_) (by simp) (closes_keyword .inWord)
        exact ihstep value hvalue (everywhereIf_iff.mp hstep value hvalue)
      have hfront : Closes ops (front (optionalWords ',' step) (some (.keyword .inWord))) := by
        cases step with
        | none => exact closes_keyword .inWord
        | some value => exact hcomma
      have hinner := @SpellsPrimary.loop _ name _ _ _ _ _ _ _ _ _ ((ihs hstart).spells hcomma)
        ((ihf hfinish).spells hfront) hsteps ((ihb hbody).spells hclosing)
      exact selfContained_enclosed (.of_operand (.primary hinner) hclosing.2)
  | locals bindings body ihbindings ihbody =>
      obtain ⟨⟨hne, -⟩, hbindings, hbody⟩ := h
      have hbinds := bindings_spell hspares hne fun binding hbinding value hvalue =>
        ihbindings binding hbinding value hvalue
          (everywhereIf_iff.mp (everywhereBound_iff.mp hbindings binding hbinding) value hvalue)
      have hinner := SpellsPrimary.locals hbinds ((ihbody hbody).spells hclosing)
      exact selfContained_enclosed (.of_operand (.primary hinner) hclosing.2)

theorem argumentWords_eq_map (args : List Expr) : argumentWords args = args.map words := by
  induction args with
  | nil => rfl
  | cons arg args ih => rw [argumentWords, ih, List.map_cons]

theorem bindingWords_eq_map (bindings : List (String × Option Expr)) :
    bindingWords bindings =
      bindings.map fun binding => .identifier binding.1 :: optionalWords '=' binding.2 := by
  induction bindings with
  | nil => rfl
  | cons binding bindings ih => rw [bindingWords, ih, List.map_cons]

theorem legible_optionalWords {announce : Char} {value? : Option Expr}
    (hannounce : IsSymbol announce) (hvalue : ∀ value ∈ value?, Legible value.words) :
    Legible (optionalWords announce value?) := by
  cases value? with
  | none => exact legible_nil
  | some value => exact legible_cons.mpr ⟨hannounce, hvalue value rfl⟩

/-- A text can hold the words of an expression. -/
theorem legible_words (h : e.Everywhere (CanBeWritten ops)) : Legible e.words := by
  have hcomma : IsSymbol ',' := by decide
  have hassign : IsSymbol '=' := by decide
  induction e using Expr.induction with
  | number value => exact legible_cons.mpr ⟨h, legible_nil⟩
  | var name => exact legible_cons.mpr ⟨h, legible_nil⟩
  | unary op operand ih => simp [words, h.1.1, ih h.2]
  | binary op left right ihl ihr => simp [words, h.1.1, ihl h.2.1, ihr h.2.2]
  | call name args ih =>
      have hname : Word.IsName name := h.1
      have hargs : Legible ([.symbol ','].intercalate (argumentWords args)) := by
        apply legible_intercalate (by simp [hcomma])
        rw [argumentWords_eq_map]
        intro part hpart
        obtain ⟨arg, harg, rfl⟩ := List.mem_map.mp hpart
        exact ih arg harg (everywhereIn_iff.mp h.2 arg harg)
      simp [words, hname, hargs]
  | cond condition thenBranch elseBranch ihc iht ihe =>
      obtain ⟨-, hcondition, hthen, helse⟩ := h
      simp [words, ihc hcondition, iht hthen, ihe helse]
  | loop name start finish step body ihs ihf ihstep ihb =>
      obtain ⟨hname, hstart, hfinish, hstep, hbody⟩ := h
      have hstepWords : Legible (optionalWords ',' step) := legible_optionalWords hcomma
        fun value hvalue => ihstep value hvalue (everywhereIf_iff.mp hstep value hvalue)
      change Word.IsName name at hname
      simp [words, hname, hcomma, hassign, ihs hstart, ihf hfinish, hstepWords, ihb hbody]
  | locals bindings body ihbindings ihbody =>
      obtain ⟨⟨-, hnames⟩, hbindings, hbody⟩ := h
      have hbinds : Legible ([.symbol ','].intercalate (bindingWords bindings)) := by
        apply legible_intercalate (by simp [hcomma])
        rw [bindingWords_eq_map]
        intro part hpart
        obtain ⟨binding, hbinding, rfl⟩ := List.mem_map.mp hpart
        have hvalue := everywhereIf_iff.mp (everywhereBound_iff.mp hbindings binding hbinding)
        exact legible_cons.mpr ⟨hnames binding hbinding, legible_optionalWords hassign
          fun value hmem => ihbindings binding hbinding value hmem (hvalue value hmem)⟩
      simp [words, hbinds, ihbody hbody]

end Expr

namespace Prototype

/-- The words of a prototype. -/
def words (p : Prototype) : List Lexeme :=
  match p.kind with
  | .function => .identifier p.name :: enclosed (p.params.map .identifier)
  | .unary op => .keyword .unary :: .symbol op :: enclosed (p.params.map .identifier)
  | .binary op precedence =>
    .keyword .binary :: .symbol op :: .number (Binary64.ofDecimal precedence 0) ::
      enclosed (p.params.map .identifier)

/-- What a prototype needs so that it can be written: names that a text can hold,
and for an operator the name that operators have, a parameter for each operand
and a precedence that a definition may ask for. -/
structure CanBeWritten (p : Prototype) : Prop where
  params : ∀ param ∈ p.params, Word.IsName param
  head : match p.kind with
    | .function => Word.IsName p.name
    | .unary op => IsSymbol op ∧ p.name = s!"unary{op}" ∧ p.params.length = 1
    | .binary op precedence => IsSymbol op ∧ p.name = s!"binary{op}" ∧ p.params.length = 2 ∧
      OperatorTable.leastPrecedence ≤ precedence ∧ precedence ≤ OperatorTable.greatestPrecedence

open Grammar

set_option maxRecDepth 2000 in
/-- A whole number that may be a precedence asks for itself. -/
theorem asksFor_ofDecimal {n : Nat} (hleast : OperatorTable.leastPrecedence ≤ n)
    (hgreatest : n ≤ OperatorTable.greatestPrecedence) : AsksFor (Binary64.ofDecimal n 0) n := by
  have hall : ∀ n ≤ OperatorTable.greatestPrecedence, OperatorTable.leastPrecedence ≤ n →
      precedenceOf? (Binary64.ofDecimal n 0) = some n := by decide
  exact precedenceOf?_eq_some.mp (hall n hgreatest hleast)

theorem words_spell {p : Prototype} (h : p.CanBeWritten) (next : Option Lexeme) :
    SpellsPrototype p.words p next := by
  obtain ⟨name, params, kind⟩ := p
  have hhead := h.head
  cases kind with
  | function => exact .function
  | unary op =>
      obtain ⟨-, rfl, hlength⟩ := hhead
      obtain ⟨param, rfl⟩ := List.length_eq_one_iff.mp hlength
      exact .unary
  | binary op precedence =>
      obtain ⟨-, rfl, hlength, hleast, hgreatest⟩ := hhead
      obtain ⟨left, right, rfl⟩ := List.length_eq_two.mp hlength
      exact .binary (.literal (asksFor_ofDecimal hleast hgreatest))

end Prototype

namespace Item

/-- The words of a top-level form. -/
def words : Item → List Lexeme
  | definition function =>
    .keyword .definition :: (function.prototype.words ++ function.body.words)
  | declaration prototype => .keyword .declaration :: prototype.words
  | expression body => body.words

/-- What a top-level form needs so that it can be written. -/
def CanBeWritten (ops : OperatorTable) : Item → Prop
  | definition function =>
    function.prototype.CanBeWritten ∧ function.body.Everywhere (Expr.CanBeWritten ops)
  | declaration prototype => prototype.CanBeWritten
  | expression body => body.Everywhere (Expr.CanBeWritten ops)

open Grammar

variable {ops : OperatorTable} {item : Item} {next : Option Lexeme}

/-- **The words of a top-level form spell it.** -/
theorem words_spell (hspares : ops.SparesPunctuation) (h : item.CanBeWritten ops)
    (hcloses : Closes ops next) : SpellsItem ops item.words item next := by
  cases item with
  | definition function =>
      obtain ⟨hprototype, hbody⟩ := h
      exact .definition (Prototype.words_spell hprototype _)
        ((Expr.words_spell hspares hbody).spells hcloses)
  | declaration prototype => exact .declaration (Prototype.words_spell h next)
  | expression body => exact .expression ((Expr.words_spell hspares h).spells hcloses)

/-- A top-level form begins with no semicolon. -/
theorem words_eq_cons (item : Item) :
    ∃ word words, item.words = word :: words ∧ word ≠ .symbol ';' := by
  cases item with
  | definition function => exact ⟨_, _, rfl, by simp⟩
  | declaration prototype => exact ⟨_, _, rfl, by simp⟩
  | expression body =>
      obtain ⟨word, words, hwords, -, hword⟩ := body.words_eq_cons
      exact ⟨word, words, hwords, hword⟩

end Item

namespace Grammar

variable {ops : OperatorTable} {ts rest : Tokens} {items : List Item}

theorem program_end (h : ts.pending = []) : program ops ts = .ok [] := by
  rw [program, if_pos h]

theorem program_separator (h : ts.lexeme? = some (.symbol ';')) :
    program ops ts = program ops ts.tail := by
  have hpending : ts.pending ≠ [] := by
    rw [Ne, ← Tokens.lexeme?_eq_none_iff, h]
    simp
  have hseparator : atSeparator ts = true := by
    simp [atSeparator, h]
  rw [program, if_neg hpending, dif_pos hseparator]

theorem program_item {value : Item} {word : Lexeme} (hword : ts.lexeme? = some word)
    (hitem : word ≠ .symbol ';') (hread : (item ops ts).Yields value rest) :
    program ops ts = (program ops rest).map (value :: ·) := by
  obtain ⟨bound, hread⟩ := hread
  have hpending : ts.pending ≠ [] := by
    rw [Ne, ← Tokens.lexeme?_eq_none_iff, hword]
    simp
  have hseparator : ¬atSeparator ts = true := by
    simp [atSeparator, hword, hitem]
  rw [program, if_neg hpending, dif_neg hseparator, hread]

/-- **Forms are read back from their words.** -/
theorem program_of_takes (hspares : ops.SparesPunctuation)
    (hitems : ∀ item ∈ items, item.CanBeWritten ops)
    (htakes : ts.Takes ([.symbol ';'].intercalate (items.map Item.words)) rest)
    (hend : rest.pending = []) : program ops ts = .ok items := by
  induction items generalizing ts with
  | nil =>
      obtain rfl := Tokens.takes_nil.mp htakes
      exact program_end hend
  | cons item items ih =>
      obtain ⟨hitem, hothers⟩ := List.forall_mem_cons.mp hitems
      -- after the form the input ends, or a semicolon stands before the others
      obtain ⟨mid, hwords, hcloses, hmid⟩ : ∃ mid, ts.Takes item.words mid ∧
          Closes ops mid.lexeme? ∧ program ops mid = .ok items := by
        cases items with
        | nil =>
            refine ⟨rest, by simpa using htakes, ?_, program_end hend⟩
            rw [Tokens.lexeme?_eq_none_iff.mpr hend]
            exact closes_end
        | cons other others =>
            rw [List.map_cons, List.map_cons, List.intercalate_cons_cons, List.append_assoc,
              Tokens.takes_append] at htakes
            obtain ⟨mid, hwords, hmid⟩ := htakes
            rw [List.singleton_append, Tokens.takes_cons] at hmid
            obtain ⟨hseparator, hrest⟩ := hmid
            refine ⟨mid, hwords, ?_, ?_⟩
            · rw [hseparator]
              exact closes_symbol (by decide) hspares.semicolon
            · rw [program_separator hseparator]
              exact ih hothers hrest
      have hread : (Grammar.item ops ts).Yields item mid :=
        (follows_item ts item mid).mpr ⟨item.words, hwords, item.words_spell hspares hitem hcloses⟩
      obtain ⟨word, words, hcons, hword⟩ := item.words_eq_cons
      rw [hcons, Tokens.takes_cons] at hwords
      rw [program_item hwords.1 hword hread, hmid]
      rfl

end Grammar

end Reckon
