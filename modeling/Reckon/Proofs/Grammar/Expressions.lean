import Reckon.Proofs.Grammar.Chains
import Reckon.Proofs.Grammar.Spelling

/-!
# Expressions are read as they are spelled

Every reader of expressions follows its phrase of the grammar
(`Grammar.follow`).  The readers call each other on fewer tokens, so this is
proved of all of them at once, by induction on the number of tokens; the lemmas
before it take the readers of fewer tokens as given and have one production
each.  A chain of operators is where the grammar and the reader differ in shape:
the grammar spells all of it and then groups it, the reader groups it as it
goes on.  That the two agree is what `expression_yields_iff` says of the links,
and `follows_chain` says it of the words.
-/

namespace Reckon

namespace Grammar

open Parsed

variable {ops : OperatorTable} {ts : Tokens}

theorem follows_symbol (c : Char) (fault : SyntaxFault) (ts : Tokens) :
    (symbol c fault ts).Follows (.exactly (.symbol c) ()) := by
  unfold symbol
  split
  · next h => exact follows_taking () h
  · next h =>
      refine follows_refuse fault fun words value next hfront hphrase => h ?_
      rw [← hfront, hphrase.1, front_cons]

theorem follows_keyword (word : Keyword) (fault : SyntaxFault) (ts : Tokens) :
    (keyword word fault ts).Follows (.exactly (.keyword word) ()) := by
  unfold keyword
  split
  · next h => exact follows_taking () h
  · next h =>
      refine follows_refuse fault fun words value next hfront hphrase => h ?_
      rw [← hfront, hphrase.1, front_cons]

theorem follows_identifier (fault : SyntaxFault) (ts : Tokens) :
    (identifier fault ts).Follows fun words name _ => words = [.identifier name] := by
  unfold identifier
  split
  · next name h =>
      refine (follows_taking name h).congr fun words value next hfront => ?_
      simp only [Phrase.exactly]
      constructor
      · intro hspells
        obtain ⟨rfl, rfl⟩ := hspells
        rfl
      · intro hspells
        subst hspells
        rw [h, front_cons] at hfront
        cases hfront
        exact ⟨rfl, rfl⟩
  · next h =>
      refine follows_refuse fault fun words value next hfront hphrase => h value ?_
      rw [← hfront, hphrase, front_cons]

/-- An operand has a first word, which is no keyword of a definition or a
declaration. -/
theorem SpellsOperand.begins {words : List Lexeme} {e : Expr} {next : Option Lexeme}
    (h : SpellsOperand ops words e next) :
    ∃ word, words.head? = some word ∧ word ≠ .keyword .definition ∧
      word ≠ .keyword .declaration := by
  cases h with
  | primary hprimary => cases hprimary <;> simp
  | unary opens separates operand => simp

theorem Spells.begins {words : List Lexeme} {e : Expr} {next : Option Lexeme}
    (h : Spells ops words e next) :
    ∃ word, words.head? = some word ∧ word ≠ .keyword .definition ∧
      word ≠ .keyword .declaration := by
  obtain ⟨chain, -⟩ := h
  generalize OperatorTree.operands _ = operands at chain
  generalize OperatorTree.operators _ = operators at chain
  cases chain with
  | last spells ends => exact spells.begins
  | link spells declared others =>
      obtain ⟨word, hword, hne⟩ := spells.begins
      exact ⟨word, by simp [List.head?_append, hword], hne⟩

theorem Spells.ne_nil {words : List Lexeme} {e : Expr} {next : Option Lexeme}
    (h : Spells ops words e next) : words ≠ [] := by
  obtain ⟨word, hword, -⟩ := h.begins
  rintro rfl
  cases hword

theorem SpellsArguments.ne_nil {words : List Lexeme} {args : List Expr} {next : Option Lexeme}
    (h : SpellsArguments ops words args next) : words ≠ [] := by
  cases h with
  | last arg => exact arg.ne_nil
  | more arg others => simp

/-- Arguments and the parenthesis after them. -/
def Closed (ops : OperatorTable) : Phrase (List Expr) := fun words args _ =>
  ∃ inner, words = inner ++ [.symbol ')'] ∧ SpellsArguments ops inner args (some (.symbol ')'))

/-- What follows an argument: the parenthesis, or a comma and more arguments. -/
inductive ClosedAfter (ops : OperatorTable) (arg : Expr) : Phrase (List Expr) where
  | close {next : Option Lexeme} : ClosedAfter ops arg [.symbol ')'] [arg] next
  | more {words : List Lexeme} {args : List Expr} {next : Option Lexeme}
      (others : Closed ops words args next) :
      ClosedAfter ops arg (.symbol ',' :: words) (arg :: args) next

/-- What follows a binding: nothing more, or a comma and more bindings. -/
inductive BoundAfter (ops : OperatorTable) (name : String) (value : Option Expr) :
    Phrase (List (String × Option Expr)) where
  | last {next : Option Lexeme} (ends : next ≠ some (.symbol ',')) :
      BoundAfter ops name value [] [(name, value)] next
  | more {words : List Lexeme} {bindings : List (String × Option Expr)} {next : Option Lexeme}
      (others : SpellsBindings ops words bindings next) :
      BoundAfter ops name value (.symbol ',' :: words) ((name, value) :: bindings) next

/-- Every reader follows its phrase. -/
structure Follow (ops : OperatorTable) (ts : Tokens) : Prop where
  expression : (expression ops ts).Follows (Spells ops)
  operand : (operand ops ts).Follows (SpellsOperand ops)
  primary : (primary ops ts).Follows (SpellsPrimary ops)
  moreArguments : (moreArguments ops ts).Follows (Closed ops)
  arguments : ∀ name, ((arguments ops ts).map (.call name)).Follows fun words =>
    SpellsPrimary ops (.identifier name :: .symbol '(' :: words)
  conditional : (conditional ops ts).Follows fun words =>
    SpellsPrimary ops (.keyword .ifWord :: words)
  loop : (loop ops ts).Follows fun words => SpellsPrimary ops (.keyword .forWord :: words)
  locals : (locals ops ts).Follows fun words => SpellsPrimary ops (.keyword .varWord :: words)
  step : (step ops ts).Follows (SpellsOptional ops ',')
  bindings : ∀ missing, (bindings ops missing ts).Follows (SpellsBindings ops)
  initial : (initial ops ts).Follows (SpellsOptional ops '=')

section Chains

variable {n : Nat} (hoperand : ∀ ts : Tokens, ts.size ≤ n →
  (operand ops ts).Follows (SpellsOperand ops))

include hoperand

/-- An operand and the links after it are a chain of words.  The induction is
over the links. -/
theorem Links.spelled {mid rest : Tokens} {links : List Link} (h : Links ops mid links rest)
    (hends : rest.operator? ops = none) {first : Expr} (hsize : ts.size ≤ n)
    (hfirst : (operand ops ts).Yields first mid) :
    ∃ words, ts.Takes words rest ∧ SpellsChain ops words (first :: links.map Link.operand)
      (links.map Link.operator) rest.lexeme? := by
  induction h generalizing ts first with
  | done mid =>
      obtain ⟨words, htakes, hspells⟩ := (hoperand ts hsize first mid).mp hfirst
      exact ⟨words, htakes, .last hspells (Tokens.operator?_eq_none.mp hends)⟩
  | @link mid last rest link links pending sign declared reads others ih =>
      obtain ⟨words, htakes, hspells⟩ := (hoperand ts hsize first mid).mp hfirst
      have hoperator := (Links.link pending sign declared reads others).operator
      obtain ⟨hop, hdeclared⟩ := Tokens.operator?_eq_some.mp hoperator
      have hmid := hfirst.bound
      obtain ⟨words', htakes', hchain⟩ := ih hends (by
        have htail := mid.size_tail_le
        omega) reads
      refine ⟨words ++ .symbol link.op :: words', ?_, .link (hop ▸ hspells) hdeclared hchain⟩
      exact htakes.append (Tokens.takes_cons.mpr ⟨hop, htakes'⟩)

/-- A chain of words is read as an operand and links.  The induction is over the
operators. -/
theorem SpellsChain.linked {words : List Lexeme} {operands : List Expr}
    {operators : List (Char × Int)} {rest : Tokens}
    (h : SpellsChain ops words operands operators rest.lexeme?) (htakes : ts.Takes words rest)
    (hsize : ts.size ≤ n) :
    ∃ first mid links, (operand ops ts).Yields first mid ∧ Links ops mid links rest ∧
      rest.operator? ops = none ∧ operands = first :: links.map Link.operand ∧
      operators = links.map Link.operator := by
  induction operators generalizing ts words operands with
  | nil =>
      cases h with
      | @last _ e _ spells ends =>
        have hread := (hoperand ts hsize e rest).mpr ⟨words, htakes, spells⟩
        exact ⟨e, rest, [], hread, .done rest, Tokens.operator?_eq_none.mpr ends, rfl, rfl⟩
  | cons operator operators ih =>
      cases h with
      | @link words words' e op precedence operands _ _ spells declared others =>
        obtain ⟨mid, hhead, htail⟩ := Tokens.takes_append.mp htakes
        obtain ⟨hop, hothers⟩ := Tokens.takes_cons.mp htail
        have hread := (hoperand ts hsize e mid).mpr ⟨words, hhead, hop ▸ spells⟩
        have hmid := hread.bound
        obtain ⟨first, last, links, hfirst, hlinks, hends, rfl, rfl⟩ := ih others hothers (by
          have htail := mid.size_tail_le
          omega)
        obtain ⟨link, rfl, rfl, rfl, hlink⟩ :=
          Links.of_operator (Tokens.operator?_eq_some.mpr ⟨hop, declared⟩) hfirst
        exact ⟨e, mid, link :: links, hread, hlink.trans hlinks, hends, rfl, rfl⟩

/-- An expression is spelled by its chain. -/
theorem follows_chain (hsize : ts.size ≤ n) : (expression ops ts).Follows (Spells ops) := by
  intro e rest
  rw [expression_yields_iff]
  constructor
  · intro hread
    obtain ⟨first, mid, links, tree, hfirst, hlinks, hends, hspans, hgrouped, rfl⟩ := hread
    obtain ⟨words, htakes, hchain⟩ := hlinks.spelled hoperand hends hsize hfirst
    rw [← hspans.operands, ← hspans.operators] at hchain
    exact ⟨words, htakes, .grouped hchain hgrouped⟩
  · intro hspells
    obtain ⟨words, htakes, ⟨chain, grouped⟩⟩ := hspells
    obtain ⟨first, mid, links, hfirst, hlinks, hends, hoperands, hoperators⟩ :=
      chain.linked hoperand htakes hsize
    exact ⟨first, mid, links, _, hfirst, hlinks, hends, ⟨hoperands, hoperators⟩, grouped, rfl⟩

end Chains

section Smaller

variable (hsmaller : ∀ rest : Tokens, rest.size < ts.size → Follow ops rest)

include hsmaller

theorem follows_primary : (primary ops ts).Follows (SpellsPrimary ops) := by
  have hnonempty : ∀ e, ¬SpellsPrimary ops [] e ts.lexeme? := by
    intro e h
    cases h
  unfold primary
  split
  · next value h =>
      refine (follows_taking _ h).congr fun words e next hfront => ?_
      constructor
      · intro hspells
        obtain ⟨rfl, rfl⟩ := hspells
        exact .number
      · intro hspells
        cases hspells <;> simp_all [Phrase.exactly]
  · next name h =>
      refine follows_after h (fun rest reached => ?_) hnonempty
      split
      · next h' =>
          refine (follows_after h' (fun rest reached => ?_) fun e hspells => ?_).relax
          · exact (hsmaller rest (by omega)).arguments name
          · cases hspells with
            | var called => exact called h'
      · next h' =>
          refine (follows_here _ _).congr fun words e next hfront => ?_
          constructor
          · intro hspells
            obtain ⟨rfl, rfl⟩ := hspells
            rw [← hfront, front_nil] at h'
            exact .var h'
          · intro hspells
            cases hspells with
            | var called => exact ⟨rfl, rfl⟩
            | callNothing => exact absurd hfront.symm h'
            | call begins arguments => exact absurd hfront.symm h'
  · next h =>
      refine follows_after h (fun rest reached => ?_) hnonempty
      refine ((hsmaller rest (by omega)).expression.andThen fun value last _ =>
        (follows_symbol ')' _ last).map fun _ => value).congr fun words e next hfront => ?_
      constructor
      · intro hspells
        obtain ⟨inner, tail, value, rfl, hinner, _, ⟨rfl, -⟩, rfl⟩ := hspells
        exact .paren hinner
      · intro hspells
        cases hspells with
        | paren inner => exact ⟨_, _, _, rfl, inner, (), ⟨rfl, rfl⟩, rfl⟩
  · next h =>
      exact follows_after h (fun rest reached => (hsmaller rest (by omega)).conditional) hnonempty
  · next h =>
      exact follows_after h (fun rest reached => (hsmaller rest (by omega)).loop) hnonempty
  · next h =>
      exact follows_after h (fun rest reached => (hsmaller rest (by omega)).locals) hnonempty
  · next hnumber hname hparen hif hfor hvar =>
      refine follows_refuse _ fun words e next hfront hspells => ?_
      cases hspells with
      | number => exact hnumber _ hfront.symm
      | var called => exact hname _ hfront.symm
      | callNothing => exact hname _ hfront.symm
      | call begins arguments => exact hname _ hfront.symm
      | paren inner => exact hparen hfront.symm
      | cond tests holds fails => exact hif hfront.symm
      | loop starts finishes steps repeats => exact hfor hfront.symm
      | locals binds follows => exact hvar hfront.symm

theorem follows_operand : (operand ops ts).Follows (SpellsOperand ops) := by
  have hprimary (h : ∀ c, c ≠ '(' → c ≠ ',' → ts.lexeme? ≠ some (.symbol c)) :
      (primary ops ts).Follows (SpellsOperand ops) := by
    refine (follows_primary hsmaller).congr fun words e next hfront => ?_
    constructor
    · intro hspells
      exact .primary hspells
    · intro hspells
      cases hspells with
      | primary hprimary => exact hprimary
      | unary opens separates operand => exact absurd hfront.symm (h _ opens separates)
  unfold operand
  split
  · next c h =>
      split
      · next hc =>
          apply hprimary
          intro c' hopens hseparates hc'
          rw [h] at hc'
          cases hc'
          exact hc.elim hopens hseparates
      · next hc =>
          rw [not_or] at hc
          refine follows_after h (fun rest reached => ?_) ?_
          · refine ((hsmaller rest (by omega)).operand.map _).congr fun words e next hfront => ?_
            constructor
            · intro hspells
              obtain ⟨e, hspells, rfl⟩ := hspells
              exact .unary hc.1 hc.2 hspells
            · intro hspells
              cases hspells with
              | primary hprimary =>
                cases hprimary
                simp at hc
              | unary opens separates operand => exact ⟨_, operand, rfl⟩
          · intro e hspells
            cases hspells with
            | primary hprimary => cases hprimary
  · next h => exact hprimary fun c _ _ => h c

theorem follows_expression : (expression ops ts).Follows (Spells ops) := by
  refine follows_chain (n := ts.size) (fun rest hsize => ?_) (Nat.le_refl _)
  by_cases hrest : rest.size < ts.size
  · exact (hsmaller rest hrest).operand
  · exact follows_operand fun other hother => hsmaller other (by omega)

theorem follows_afterArgument (arg : Expr) (rest : Tokens) (hrest : rest.size < ts.size) :
    (match h : rest.lexeme? with
      | some (.symbol ')') => Parsed.taking [arg] rest h
      | some (.symbol ',') => (Parsed.taking () rest h).andThen fun _ rest _ =>
          (moreArguments ops rest).map (arg :: ·)
      | _ => .refuse .argumentEndExpected rest).Follows (ClosedAfter ops arg) := by
  split
  · next h =>
      refine (follows_taking _ h).congr fun words args next hfront => ?_
      constructor
      · intro hspells
        obtain ⟨rfl, rfl⟩ := hspells
        exact .close
      · intro hspells
        cases hspells with
        | close => exact ⟨rfl, rfl⟩
        | more others => simp [h] at hfront
  · next h =>
      refine follows_after h (fun last _ => ?_) fun args hspells => by cases hspells
      refine ((hsmaller last (by omega)).moreArguments.map _).congr
        fun words args next hfront => ?_
      constructor
      · intro hspells
        obtain ⟨args, hspells, rfl⟩ := hspells
        exact .more hspells
      · intro hspells
        cases hspells with
        | more others => exact ⟨_, others, rfl⟩
  · next hclose hcomma =>
      refine follows_refuse _ fun words args next hfront hspells => ?_
      cases hspells with
      | close => exact hclose hfront.symm
      | more others => exact hcomma hfront.symm

theorem follows_moreArguments : (moreArguments ops ts).Follows (Closed ops) := by
  unfold moreArguments
  refine ((follows_expression hsmaller).andThen fun arg rest hrest =>
    follows_afterArgument hsmaller arg rest (by omega)).congr fun words args next hfront => ?_
  constructor
  · intro hspells
    obtain ⟨head, tail, arg, rfl, hhead, htail⟩ := hspells
    cases htail with
    | close => exact ⟨head, rfl, .last hhead⟩
    | more others =>
      obtain ⟨inner, rfl, hinner⟩ := others
      exact ⟨head ++ .symbol ',' :: inner, by simp, .more hhead hinner⟩
  · intro hspells
    obtain ⟨inner, rfl, hinner⟩ := hspells
    cases hinner with
    | last arg => exact ⟨inner, _, _, rfl, arg, .close⟩
    | more arg others => exact ⟨_, _, _, List.append_assoc _ _ _, arg, .more ⟨_, rfl, others⟩⟩

theorem follows_arguments (name : String) :
    ((arguments ops ts).map (.call name)).Follows fun words =>
      SpellsPrimary ops (.identifier name :: .symbol '(' :: words) := by
  unfold arguments
  split
  · next h =>
      refine ((follows_taking _ h).map _).congr fun words e next hfront => ?_
      constructor
      · intro hspells
        obtain ⟨args, ⟨rfl, rfl⟩, rfl⟩ := hspells
        exact .callNothing
      · intro hspells
        cases hspells with
        | callNothing => exact ⟨[], ⟨rfl, rfl⟩, rfl⟩
        | call begins arguments =>
          rw [front_append, front_eq_head? arguments.ne_nil, h] at hfront
          exact absurd hfront begins
  · next h =>
      refine ((follows_moreArguments hsmaller).map _).congr fun words e next hfront => ?_
      constructor
      · intro hspells
        obtain ⟨args, ⟨inner, rfl, hinner⟩, rfl⟩ := hspells
        refine .call (fun hbegins => h ?_) hinner
        rw [← hfront, front_append, front_eq_head? hinner.ne_nil, hbegins]
      · intro hspells
        cases hspells with
        | callNothing => exact absurd hfront.symm h
        | call begins arguments => exact ⟨_, ⟨_, rfl, arguments⟩, rfl⟩

theorem follows_conditional :
    (conditional ops ts).Follows fun words => SpellsPrimary ops (.keyword .ifWord :: words) := by
  unfold conditional
  refine ((follows_expression hsmaller).andThen fun condition rest _ =>
    (follows_keyword .thenWord _ rest).after fun rest _ =>
      (hsmaller rest (by omega)).expression.andThen fun thenBranch rest _ =>
        (follows_keyword .elseWord _ rest).after fun rest _ =>
          (hsmaller rest (by omega)).expression.map
            (Expr.cond condition thenBranch)).congr fun words e next hfront => ?_
  constructor
  · intro hspells
    obtain ⟨ifWords, _, condition, rfl, tests, _, rfl, thenWords, _, thenBranch, rfl, holds,
      elseWords, rfl, elseBranch, fails, rfl⟩ := hspells
    exact .cond tests holds fails
  · intro hspells
    cases hspells with
    | cond tests holds fails =>
      exact ⟨_, _, _, rfl, tests, _, rfl, _, _, _, rfl, holds, _, rfl, _, fails, rfl⟩

theorem follows_loop :
    (loop ops ts).Follows fun words => SpellsPrimary ops (.keyword .forWord :: words) := by
  unfold loop
  refine ((follows_identifier _ ts).andThen fun name rest _ =>
    (follows_symbol '=' _ rest).after fun rest _ =>
      (hsmaller rest (by omega)).expression.andThen fun start rest _ =>
        (follows_symbol ',' _ rest).after fun rest _ =>
          (hsmaller rest (by omega)).expression.andThen fun finish rest _ =>
            (hsmaller rest (by omega)).step.andThen fun step rest _ =>
              (follows_keyword .inWord _ rest).after fun rest _ =>
                (hsmaller rest (by omega)).expression.map
                  (Expr.loop name start finish step)).congr fun words e next hfront => ?_
  constructor
  · intro hspells
    obtain ⟨_, _, name, rfl, rfl, _, rfl, startWords, _, start, rfl, starts, _, rfl, finishWords,
      _, finish, rfl, finishes, stepWords, _, step, rfl, steps, bodyWords, rfl, body, repeats,
      rfl⟩ := hspells
    rw [front_append] at finishes
    exact .loop starts finishes steps repeats
  · intro hspells
    cases hspells with
    | loop starts finishes steps repeats =>
      rw [← front_cons] at finishes
      exact ⟨[_], _, _, rfl, rfl, _, rfl, _, _, _, rfl, starts, _, rfl, _, _, _, rfl,
        by rwa [front_append], _, _, _, rfl, steps, _, rfl, _, repeats, rfl⟩

theorem follows_optional (announce : Char) :
    (if h : ts.lexeme? = some (.symbol announce) then
        ((Parsed.taking () ts h).andThen fun _ rest _ => (expression ops rest).map some).relax
      else .here none ts).Follows (SpellsOptional ops announce) := by
  split
  · next h =>
      refine (follows_after h (fun rest _ => ?_) fun value hspells => ?_).relax
      · refine ((hsmaller rest (by omega)).expression.map _).congr fun words value next hfront => ?_
        constructor
        · intro hspells
          obtain ⟨e, hspells, rfl⟩ := hspells
          exact .present hspells
        · intro hspells
          cases hspells with
          | present hspells => exact ⟨_, hspells, rfl⟩
      · cases hspells with
        | missing ends => exact ends h
  · next h =>
      refine (follows_here _ _).congr fun words value next hfront => ?_
      constructor
      · intro hspells
        obtain ⟨rfl, rfl⟩ := hspells
        rw [← hfront, front_nil] at h
        exact .missing h
      · intro hspells
        cases hspells with
        | missing ends => exact ⟨rfl, rfl⟩
        | present hspells => exact absurd hfront.symm h

theorem follows_step : (step ops ts).Follows (SpellsOptional ops ',') := by
  unfold step
  exact follows_optional hsmaller ','

theorem follows_initial : (initial ops ts).Follows (SpellsOptional ops '=') := by
  unfold initial
  exact follows_optional hsmaller '='

theorem follows_afterBinding (name : String) (value : Option Expr) (rest : Tokens)
    (hrest : rest.size < ts.size) :
    (if h : rest.lexeme? = some (.symbol ',') then
        ((Parsed.taking () rest h).andThen fun _ rest _ =>
          (bindings ops .nextLocalExpected rest).map ((name, value) :: ·)).relax
      else .here [(name, value)] rest).Follows (BoundAfter ops name value) := by
  split
  · next h =>
      refine (follows_after h (fun last _ => ?_) fun found hspells => ?_).relax
      · refine (((hsmaller last (by omega)).bindings _).map _).congr
          fun words found next hfront => ?_
        constructor
        · intro hspells
          obtain ⟨others, hspells, rfl⟩ := hspells
          exact .more hspells
        · intro hspells
          cases hspells with
          | more others => exact ⟨_, others, rfl⟩
      · cases hspells with
        | last ends => exact ends h
  · next h =>
      refine (follows_here _ _).congr fun words found next hfront => ?_
      constructor
      · intro hspells
        obtain ⟨rfl, rfl⟩ := hspells
        rw [← hfront, front_nil] at h
        exact .last h
      · intro hspells
        cases hspells with
        | last ends => exact ⟨rfl, rfl⟩
        | more others => exact absurd hfront.symm h

theorem follows_bindings (missing : SyntaxFault) :
    (bindings ops missing ts).Follows (SpellsBindings ops) := by
  unfold bindings
  refine ((follows_identifier _ ts).andThen fun name rest _ =>
    (hsmaller rest (by omega)).initial.andThen fun value rest _ =>
      follows_afterBinding hsmaller name value rest (by omega)).congr
        fun words found next hfront => ?_
  constructor
  · intro hspells
    obtain ⟨_, _, name, rfl, rfl, words, tail, value, rfl, initially, htail⟩ := hspells
    cases htail with
    | last ends =>
      rw [List.append_nil]
      exact .last initially ends
    | more others => exact .more initially others
  · intro hspells
    cases hspells with
    | last initially ends =>
      exact ⟨[_], _, _, rfl, rfl, _, [], _, (List.append_nil _).symm, initially, .last ends⟩
    | more initially others =>
      exact ⟨[_], _, _, rfl, rfl, _, _, _, rfl, initially, .more others⟩

theorem follows_locals :
    (locals ops ts).Follows fun words => SpellsPrimary ops (.keyword .varWord :: words) := by
  unfold locals
  refine ((follows_bindings hsmaller _).andThen fun bindings rest _ =>
    (follows_keyword .inWord _ rest).after fun rest _ =>
      (hsmaller rest (by omega)).expression.map (Expr.locals bindings)).congr
        fun words e next hfront => ?_
  constructor
  · intro hspells
    obtain ⟨words, _, bindings, rfl, binds, bodyWords, rfl, body, follows, rfl⟩ := hspells
    exact .locals binds follows
  · intro hspells
    cases hspells with
    | locals binds follows => exact ⟨_, _, _, rfl, binds, _, rfl, _, follows, rfl⟩

end Smaller

theorem follow (ops : OperatorTable) (ts : Tokens) : Follow ops ts :=
  have hsmaller := fun rest (_ : rest.size < ts.size) => follow ops rest
  { expression := follows_expression hsmaller
    operand := follows_operand hsmaller
    primary := follows_primary hsmaller
    moreArguments := follows_moreArguments hsmaller
    arguments := follows_arguments hsmaller
    conditional := follows_conditional hsmaller
    loop := follows_loop hsmaller
    locals := follows_locals hsmaller
    step := follows_step hsmaller
    bindings := follows_bindings hsmaller
    initial := follows_initial hsmaller }
termination_by ts.size

end Grammar

end Reckon
