import Reckon.Grammar.Item
import Reckon.Proofs.Binary64.Rounding
import Reckon.Proofs.Grammar.Expressions

/-!
# The readers recognize the grammar

Prototypes and top-level forms are read as they are spelled, and with that the
whole grammar is recognized (`Grammar.recognizes_grammar`): a reader yields
exactly what the grammar spells, stops at a mistake exactly where it spells
nothing, and no tokens have two readings.
-/

namespace Reckon

namespace Grammar

open Parsed

variable {ops : OperatorTable} {ts : Tokens}

/-- A literal asks for a precedence exactly if one is found for it. -/
theorem precedenceOf?_eq_some {value : Float} {precedence : Nat} :
    precedenceOf? value = some precedence ↔ AsksFor value precedence := by
  have hscale := Binary64.scale_pos
  have hwhole : Binary64.wholePart value = precedence ↔
      precedence * Binary64.scale ≤ Binary64.units value ∧
        Binary64.units value < (precedence + 1) * Binary64.scale := by
    rw [Binary64.wholePart, Nat.div_eq_iff hscale, Nat.add_mul]
    omega
  unfold precedenceOf?
  split
  · next hout =>
      constructor
      · intro h
        cases h
      · intro h
        obtain ⟨hordered, hpositive, hleast, hgreatest, -, -⟩ := h
        simp only [hordered, hpositive, Nat.not_lt.mpr hleast, Nat.not_lt.mpr hgreatest,
          decide_false, Bool.or_false, Bool.false_eq_true] at hout
  · next hin =>
      simp only [Bool.or_eq_true, decide_eq_true_eq, not_or, Bool.not_eq_true, Nat.not_lt] at hin
      obtain ⟨⟨⟨hordered, hpositive⟩, hleast⟩, hgreatest⟩ := hin
      rw [Option.some_inj, hwhole]
      constructor
      · intro h
        exact ⟨hordered, hpositive, hleast, hgreatest, h.1, h.2⟩
      · intro h
        exact ⟨h.reached, h.exceeded⟩

theorem follows_precedence (ts : Tokens) : (precedence ts).Follows SpellsPrecedence := by
  unfold precedence
  split
  · next value h =>
      split
      · next found hfound =>
          refine (follows_taking found h).relax.congr fun words p next hfront => ?_
          constructor
          · intro hspells
            obtain ⟨rfl, rfl⟩ := hspells
            exact .literal (precedenceOf?_eq_some.mp hfound)
          · intro hspells
            cases hspells with
            | missing ends => exact absurd (hfront.trans h) (ends value)
            | literal asks =>
              rw [h, front_cons] at hfront
              cases hfront
              rw [precedenceOf?_eq_some.mpr asks] at hfound
              cases hfound
              exact ⟨rfl, rfl⟩
      · next hnone =>
          refine follows_refuse _ fun words p next hfront hspells => ?_
          cases hspells with
          | missing ends => exact ends value (hfront.trans h)
          | literal asks =>
            rw [h, front_cons] at hfront
            cases hfront
            rw [precedenceOf?_eq_some.mpr asks] at hnone
            cases hnone
  · next hnumber =>
      refine (follows_here _ _).congr fun words p next hfront => ?_
      constructor
      · intro hspells
        obtain ⟨rfl, rfl⟩ := hspells
        rw [front_nil] at hfront
        subst hfront
        exact .missing hnumber
      · intro hspells
        cases hspells with
        | missing ends => exact ⟨rfl, rfl⟩
        | literal asks => exact absurd hfront.symm (hnumber _)

theorem follows_operatorSymbol (fault : SyntaxFault) (ts : Tokens) :
    (operatorSymbol fault ts).Follows fun words op _ => words = [.symbol op] := by
  unfold operatorSymbol
  split
  · next op h =>
      refine (follows_taking op h).congr fun words value next hfront => ?_
      constructor
      · intro hspells
        obtain ⟨rfl, rfl⟩ := hspells
        rfl
      · intro hspells
        subst hspells
        rw [h, front_cons] at hfront
        cases hfront
        exact ⟨rfl, rfl⟩
  · next h =>
      refine follows_refuse fault fun words value next hfront hphrase => h value ?_
      rw [← hfront, hphrase, front_cons]

/-- The part of a prototype before its parameters. -/
inductive SpellsHead : Phrase (String × PrototypeKind) where
  | function {name : String} {next : Option Lexeme} :
      SpellsHead [.identifier name] (name, .function) next
  | unary {op : Char} {next : Option Lexeme} :
      SpellsHead [.keyword .unary, .symbol op] (s!"unary{op}", .unary op) next
  | binary {op : Char} {words : List Lexeme} {precedence : Nat} {next : Option Lexeme}
      (literal : SpellsPrecedence words precedence next) :
      SpellsHead (.keyword .binary :: .symbol op :: words) (s!"binary{op}", .binary op precedence)
        next

theorem follows_prototypeHead (ts : Tokens) : (prototypeHead ts).Follows SpellsHead := by
  unfold prototypeHead
  split
  · next name h =>
      refine (follows_taking _ h).congr fun words found next hfront => ?_
      constructor
      · intro hspells
        obtain ⟨rfl, rfl⟩ := hspells
        exact .function
      · intro hspells
        cases hspells <;> simp_all [Phrase.exactly]
  · next h =>
      refine follows_after h (fun rest _ => ?_) fun found hspells => by cases hspells
      refine ((follows_operatorSymbol _ rest).map _).congr fun words found next hfront => ?_
      constructor
      · intro hspells
        obtain ⟨op, rfl, rfl⟩ := hspells
        exact .unary
      · intro hspells
        cases hspells with
        | unary => exact ⟨_, rfl, rfl⟩
  · next h =>
      refine follows_after h (fun rest _ => ?_) fun found hspells => by cases hspells
      refine ((follows_operatorSymbol _ rest).andThen fun op rest _ =>
        (follows_precedence rest).map fun precedence =>
          (s!"binary{op}", PrototypeKind.binary op precedence)).congr
            fun words found next hfront => ?_
      constructor
      · intro hspells
        obtain ⟨_, words, op, rfl, rfl, precedence, literal, rfl⟩ := hspells
        exact .binary literal
      · intro hspells
        cases hspells with
        | binary literal => exact ⟨[_], _, _, rfl, rfl, _, literal, rfl⟩
  · next hname hunary hbinary =>
      refine follows_refuse _ fun words found next hfront hspells => ?_
      cases hspells with
      | function => exact hname _ hfront.symm
      | unary => exact hunary hfront.symm
      | binary literal => exact hbinary hfront.symm

/-- The names at the front of some tokens are the words of the first of them. -/
theorem map_lexeme_take_namesOf (tokens : List Token) :
    (tokens.take (namesOf tokens).length).map Token.lexeme =
      (namesOf tokens).map .identifier := by
  induction tokens with
  | nil => rfl
  | cons token tokens ih =>
      obtain ⟨lexeme, span⟩ := token
      cases lexeme with
      | identifier name => simp [namesOf, ih]
      | keyword word => rfl
      | number value => rfl
      | symbol c => rfl

/-- No name is left after the names at the front. -/
theorem head?_drop_namesOf (tokens : List Token) (name : String) :
    (tokens.drop (namesOf tokens).length).head?.map Token.lexeme ≠ some (.identifier name) := by
  induction tokens with
  | nil => simp
  | cons token tokens ih =>
      obtain ⟨lexeme, span⟩ := token
      cases lexeme with
      | identifier name => simpa [namesOf] using ih
      | keyword word => simp [namesOf]
      | number value => simp [namesOf]
      | symbol c => simp [namesOf]

/-- Names up to a word that is none are the names at the front. -/
theorem namesOf_append {tokens others : List Token} {params : List String}
    (hwords : tokens.map Token.lexeme = params.map .identifier)
    (hends : ∀ name, others.head?.map Token.lexeme ≠ some (.identifier name)) :
    namesOf (tokens ++ others) = params := by
  induction params generalizing tokens with
  | nil =>
      obtain rfl := List.map_eq_nil_iff.mp hwords
      cases others with
      | nil => rfl
      | cons token others =>
          obtain ⟨lexeme, span⟩ := token
          cases lexeme with
          | identifier name => simp at hends
          | keyword word => rfl
          | number value => rfl
          | symbol c => rfl
  | cons param params ih =>
      obtain ⟨⟨lexeme, span⟩, others', rfl, rfl, hothers⟩ := List.map_eq_cons_iff.mp hwords
      simp [namesOf, ih hothers]

/-- The names that are read are all up to a word that is none. -/
theorem follows_names (ts : Tokens) :
    (names ts).Follows fun words params next =>
      words = params.map .identifier ∧ ∀ name, next ≠ some (.identifier name) := by
  intro params rest
  constructor
  · intro hread
    obtain ⟨bound, hread⟩ := hread
    cases hread
    refine ⟨_, ⟨ts.pending.take (namesOf ts.pending).length, rfl, ?_, rfl⟩, ?_, ?_⟩
    · exact (List.take_append_drop _ _).symm
    · exact map_lexeme_take_namesOf ts.pending
    · exact head?_drop_namesOf ts.pending
  · intro hspells
    obtain ⟨words, ⟨tokens, rfl, hpending, hfinish⟩, hwords, hends⟩ := hspells
    have hfound : namesOf ts.pending = params := by
      rw [hpending]
      exact namesOf_append hwords hends
    have hlength : params.length = tokens.length := by
      simpa using (congrArg List.length hwords).symm
    have hdrop : ts.pending.drop params.length = rest.pending := by
      rw [hlength, hpending, List.drop_left]
    refine ⟨by simp [Tokens.size, hpending], ?_⟩
    unfold names
    simp only [hfound, hdrop, hfinish]

/-- The parameters of a prototype whose head has been read. -/
inductive SpellsParameters (name : String) (kind : PrototypeKind) : Phrase Prototype where
  | list {params : List String} {next : Option Lexeme}
      (arity : kind.operands?.getD params.length = params.length) :
      SpellsParameters name kind (.symbol '(' :: (params.map .identifier ++ [.symbol ')']))
        ⟨name, params, kind⟩ next

theorem follows_parameters (name : String) (kind : PrototypeKind) (ts : Tokens) :
    ((symbol '(' .parametersExpected ts).andThen fun _ rest _ =>
      (names rest).andThen fun params rest _ =>
        (symbol ')' .parametersEndExpected rest).andThen fun _ rest _ =>
          if (kind.operands?.getD params.length) = params.length then
            Parsed.here ⟨name, params, kind⟩ rest
          else .refuse .operandCountWrong rest).Follows (SpellsParameters name kind) := by
  have hlast (params : List String) (rest : Tokens) :
      (if (kind.operands?.getD params.length) = params.length then
        Parsed.here ⟨name, params, kind⟩ rest
        else .refuse .operandCountWrong rest).Follows fun words (p : Prototype) _ =>
          words = [] ∧ p = ⟨name, params, kind⟩ ∧
            kind.operands?.getD params.length = params.length := by
    split
    · next harity =>
        refine (follows_here _ _).congr fun words p next hfront => ?_
        simp [Phrase.nothing, harity]
    · next harity => exact follows_refuse _ fun words p next hfront hspells => harity hspells.2.2
  refine ((follows_symbol '(' _ ts).after fun rest _ =>
    (follows_names rest).andThen fun params rest _ =>
      (follows_symbol ')' _ rest).after fun rest _ => hlast params rest).congr
        fun words p next hfront => ?_
  constructor
  · intro hspells
    obtain ⟨_, rfl, _, _, params, rfl, ⟨rfl, -⟩, _, rfl, rfl, rfl, harity⟩ := hspells
    exact .list harity
  · intro hspells
    cases hspells with
    | list arity => exact ⟨_, rfl, _, [_], _, rfl, ⟨rfl, by simp⟩, _, rfl, rfl, rfl, arity⟩

theorem follows_prototype (ts : Tokens) : (prototype ts).Follows SpellsPrototype := by
  unfold prototype
  refine ((follows_prototypeHead ts).andThen fun head rest _ =>
    follows_parameters head.1 head.2 rest).congr fun words p next hfront => ?_
  constructor
  · intro hspells
    obtain ⟨head, _, ⟨name, kind⟩, rfl, hhead, ⟨arity⟩⟩ := hspells
    cases hhead with
    | function => exact .function
    | unary =>
      obtain ⟨param, rfl⟩ := List.length_eq_one_iff.mp arity.symm
      exact .unary
    | binary literal =>
      obtain ⟨left, right, rfl⟩ := List.length_eq_two.mp arity.symm
      exact .binary literal
  · intro hspells
    cases hspells with
    | function => exact ⟨[_], _, (_, _), rfl, .function, .list rfl⟩
    | @unary op param =>
      exact ⟨[_, _], _, (_, _), rfl, .unary, @SpellsParameters.list _ _ [param] _ rfl⟩
    | @binary op words precedence left right _ literal =>
      exact ⟨_ :: _ :: words, _, (_, _), rfl, .binary literal,
        @SpellsParameters.list _ _ [left, right] _ rfl⟩

theorem follows_definition (h : ts.lexeme? = some (.keyword .definition)) :
    (definition ops ts).Follows fun words function next =>
      SpellsItem ops words (.definition function) next := by
  unfold definition
  refine (((follows_prototype ts.tail).andThen fun head rest _ =>
    (follow ops rest).expression.map fun body => (⟨head, body⟩ : Function)).behind_tail h _).congr
      fun words function next hfront => ?_
  constructor
  · intro hspells
    obtain ⟨_, rfl, headWords, bodyWords, head, rfl, heads, body, follows, rfl⟩ := hspells
    exact .definition heads follows
  · intro hspells
    cases hspells with
    | definition heads follows => exact ⟨_, rfl, _, _, _, rfl, heads, _, follows, rfl⟩

theorem follows_declaration (ops : OperatorTable) (h : ts.lexeme? = some (.keyword .declaration)) :
    (declaration ts).Follows fun words head next =>
      SpellsItem ops words (.declaration head) next := by
  unfold declaration
  refine ((follows_prototype ts.tail).behind_tail h _).congr fun words head next hfront => ?_
  constructor
  · intro hspells
    obtain ⟨_, rfl, heads⟩ := hspells
    exact .declaration heads
  · intro hspells
    cases hspells with
    | declaration heads => exact ⟨_, rfl, heads⟩

theorem follows_item (ts : Tokens) : (item ops ts).Follows (SpellsItem ops) := by
  have hexpression {words : List Lexeme} {e : Expr} {next : Option Lexeme}
      (hspells : Spells ops words e next) (hfront : front words next = ts.lexeme?) :
      ts.lexeme? ≠ some (.keyword .definition) ∧ ts.lexeme? ≠ some (.keyword .declaration) := by
    obtain ⟨word, hword, hdefinition, hdeclaration⟩ := hspells.begins
    rw [← hfront, front_eq_head? hspells.ne_nil, hword]
    simp [hdefinition, hdeclaration]
  unfold item
  split
  · next h =>
      refine ((follows_definition h).map _).congr fun words found next hfront => ?_
      constructor
      · intro hspells
        obtain ⟨function, hspells, rfl⟩ := hspells
        exact hspells
      · intro hspells
        cases hspells with
        | definition heads follows => exact ⟨_, .definition heads follows, rfl⟩
        | declaration heads => simp [h] at hfront
        | expression body => exact absurd h (hexpression body hfront).1
  · next h =>
      refine ((follows_declaration ops h).map _).congr fun words found next hfront => ?_
      constructor
      · intro hspells
        obtain ⟨head, hspells, rfl⟩ := hspells
        exact hspells
      · intro hspells
        cases hspells with
        | definition heads follows => simp [h] at hfront
        | declaration heads => exact ⟨_, .declaration heads, rfl⟩
        | expression body => exact absurd h (hexpression body hfront).2
  · next hdefinition hdeclaration =>
      refine ((follow ops ts).expression.map _).congr fun words found next hfront => ?_
      constructor
      · intro hspells
        obtain ⟨e, hspells, rfl⟩ := hspells
        exact .expression hspells
      · intro hspells
        cases hspells with
        | definition heads follows => exact absurd hfront.symm hdefinition
        | declaration heads => exact absurd hfront.symm hdeclaration
        | expression body => exact ⟨_, body, rfl⟩

/-- A reader recognizes a phrase: it yields what the phrase spells with the
words up to the tokens it leaves, it stops at a mistake exactly where the phrase
spells nothing, and the phrase spells at most one thing from any tokens on. -/
structure Recognizes {α : Type} {gain : Nat} (read : (ts : Tokens) → Parsed α gain ts)
    (phrase : Phrase α) : Prop where
  yields : ∀ ts value rest, (read ts).Yields value rest ↔
    ∃ words, ts.Takes words rest ∧ phrase words value rest.lexeme?
  refuses : ∀ ts, (∃ problem, (read ts).outcome = .error problem) ↔
    ¬∃ words value rest, ts.Takes words rest ∧ phrase words value rest.lexeme?
  unique : ∀ (ts : Tokens) (words words' : List Lexeme) (value value' : α) (rest rest' : Tokens),
    ts.Takes words rest → phrase words value rest.lexeme? →
    ts.Takes words' rest' → phrase words' value' rest'.lexeme? →
      words = words' ∧ value = value' ∧ rest = rest'

/-- A reader that follows a phrase recognizes it. -/
theorem Recognizes.of_follows {α : Type} {gain : Nat} {read : (ts : Tokens) → Parsed α gain ts}
    {phrase : Phrase α} (h : ∀ ts, (read ts).Follows phrase) : Recognizes read phrase where
  yields := h
  refuses ts := by
    rw [outcome_eq_error_iff, not_iff_not]
    constructor
    · intro hread
      obtain ⟨value, rest, hread⟩ := hread
      obtain ⟨words, htakes, hphrase⟩ := (h ts value rest).mp hread
      exact ⟨words, value, rest, htakes, hphrase⟩
    · intro hspells
      obtain ⟨words, value, rest, htakes, hphrase⟩ := hspells
      exact ⟨value, rest, (h ts value rest).mpr ⟨words, htakes, hphrase⟩⟩
  unique ts words words' value value' rest rest' htakes hphrase htakes' hphrase' := by
    have hread := (h ts value rest).mpr ⟨words, htakes, hphrase⟩
    have hread' := (h ts value' rest').mpr ⟨words', htakes', hphrase'⟩
    obtain ⟨rfl, rfl⟩ := hread.unique hread'
    exact ⟨htakes.unique htakes', rfl, rfl⟩

/-- **The readers recognize the grammar.** -/
theorem recognizes_grammar (ops : OperatorTable) :
    Recognizes (expression ops) (Spells ops) ∧ Recognizes (item ops) (SpellsItem ops) :=
  ⟨.of_follows fun ts => (follow ops ts).expression, .of_follows follows_item⟩

end Grammar

end Reckon
