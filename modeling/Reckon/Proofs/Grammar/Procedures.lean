import Reckon.Grammar.Item

/-!
# The grammar as procedures

The readers of the grammar end because what they return says how many tokens are left.  Here
they are written as procedures that know nothing of that: they look at the current token,
advance by one token, which leaves the end of the input where it is, refuse a token, and call
each other (`Procedure.body`).  Procedures that may call each other to a certain depth only
give up beyond it (`Procedure.attempt`).

Every procedure comes to its end, with what the reader of the same name comes to, as soon as
the depth exceeds a bound that is linear in the number of tokens left
(`Procedure.attempt_eq_read`).  A call that is made before a token was consumed goes to a
procedure of a smaller weight, so only so many calls are nested between one token and the
next.
-/

namespace Reckon

/-- The value or the mistake, and the tokens that are left. -/
def Parsed.result {α : Type} {gain : Nat} {start : Tokens} (p : Parsed α gain start) :
    Except SyntaxError α × Tokens :=
  (p.outcome, p.rest)

namespace Grammar

/-- An attempt to read something.  It may never end; otherwise it yields a value or a mistake,
and leaves tokens. -/
structure Attempt (α : Type) where
  run : Tokens → Option (Except SyntaxError α × Tokens)

namespace Attempt

variable {α : Type}

instance : Monad Attempt where
  pure a := ⟨fun ts => some (.ok a, ts)⟩
  bind m k := ⟨fun ts =>
    match m.run ts with
    | none => none
    | some (.error problem, rest) => some (.error problem, rest)
    | some (.ok a, rest) => (k a).run rest⟩

/-- The attempt that never ends. -/
def never : Attempt α := ⟨fun _ => none⟩

/-- Look at the current token. -/
def lexeme? : Attempt (Option Lexeme) := ⟨fun ts => some (.ok ts.lexeme?, ts)⟩

/-- Look whether the current token is an infix operator. -/
def operator? (ops : OperatorTable) : Attempt (Option (Char × Int)) :=
  ⟨fun ts => some (.ok (ts.operator? ops), ts)⟩

/-- Advance by one token.  At the end there is nothing to advance over. -/
def advance : Attempt Unit := ⟨fun ts => some (.ok (), ts.tail)⟩

/-- Stop at the current token. -/
def refuse (fault : SyntaxFault) : Attempt α :=
  ⟨fun ts => some (.error ⟨fault, ts.span⟩, ts)⟩

/-- Read a given symbol. -/
def expectSymbol (c : Char) (fault : SyntaxFault) : Attempt Unit := do
  if (← lexeme?) = some (.symbol c) then advance else refuse fault

/-- Read a given keyword. -/
def expectKeyword (word : Keyword) (fault : SyntaxFault) : Attempt Unit := do
  if (← lexeme?) = some (.keyword word) then advance else refuse fault

/-- Read a name. -/
def expectIdentifier (fault : SyntaxFault) : Attempt String := do
  match ← lexeme? with
  | some (.identifier name) =>
    advance
    return name
  | _ => refuse fault

/-- Read the character of an operator. -/
def expectOperator (fault : SyntaxFault) : Attempt Char := do
  match ← lexeme? with
  | some (.symbol op) =>
    advance
    return op
  | _ => refuse fault

/-- Read the precedence of an operator, if one is given. -/
def optionalPrecedence : Attempt Nat := do
  match ← lexeme? with
  | some (.number value) =>
    match precedenceOf? value with
    | some precedence =>
      advance
      return precedence
    | none => refuse .precedenceOutOfRange
  | _ => return OperatorTable.defaultPrecedence

/-- Read the name of a prototype and what it declares. -/
def expectHead : Attempt (String × PrototypeKind) := do
  match ← lexeme? with
  | some (.identifier name) =>
    advance
    return (name, .function)
  | some (.keyword .unary) =>
    advance
    let op ← expectOperator .unaryOperatorExpected
    return (s!"unary{op}", .unary op)
  | some (.keyword .binary) =>
    advance
    let op ← expectOperator .binaryOperatorExpected
    let precedence ← optionalPrecedence
    return (s!"binary{op}", .binary op precedence)
  | _ => refuse .prototypeExpected

/-- Look whether the current token is an operator that binds tighter than the given
precedence. -/
def yieldsTighter (ops : OperatorTable) (precedence : Int) : Attempt Bool := do
  match ← operator? ops with
  | some (_, next) => return precedence < next
  | none => return false

end Attempt

/-- The procedures that call each other. -/
inductive Procedure : Type → Type 1 where
  | expression : Procedure Expr
  | operand : Procedure Expr
  | chain (least : Int) (left : Expr) : Procedure Expr
  | primary : Procedure Expr
  | arguments : Procedure (List Expr)
  | moreArguments : Procedure (List Expr)
  | conditional : Procedure Expr
  | loop : Procedure Expr
  | step : Procedure (Option Expr)
  | locals : Procedure Expr
  | bindings (missing : SyntaxFault) : Procedure (List (String × Option Expr))
  | initial : Procedure (Option Expr)
  | names : Procedure (List String)
  | prototype : Procedure Prototype
  | definition : Procedure Function
  | declaration : Procedure Prototype
  | item : Procedure Item

namespace Procedure

open Attempt

/-- What a procedure does, where calling procedures is left open. -/
def body (ops : OperatorTable) (call : {β : Type} → Procedure β → Attempt β) :
    {α : Type} → Procedure α → Attempt α
  | _, .expression => do
    let left ← call .operand
    call (.chain 0 left)
  | _, .operand => do
    match ← lexeme? with
    | some (.symbol c) =>
      if c = '(' ∨ c = ',' then call .primary
      else
        advance
        return .unary c (← call .operand)
    | _ => call .primary
  | _, .chain least left => do
    match ← operator? ops with
    | none => return left
    | some (op, precedence) =>
      if precedence < least then return left
      else
        advance
        let right ← call .operand
        let tighter ← yieldsTighter ops precedence
        let right ← (if tighter then call (.chain (precedence + 1) right) else pure right)
        call (.chain least (.binary op left right))
  | _, .primary => do
    match ← lexeme? with
    | some (.number value) =>
      advance
      return .number value
    | some (.identifier name) =>
      advance
      if (← lexeme?) = some (.symbol '(') then
        advance
        return .call name (← call .arguments)
      else return .var name
    | some (.symbol '(') =>
      advance
      let value ← call .expression
      expectSymbol ')' .closeExpected
      return value
    | some (.keyword .ifWord) =>
      advance
      call .conditional
    | some (.keyword .forWord) =>
      advance
      call .loop
    | some (.keyword .varWord) =>
      advance
      call .locals
    | _ => refuse .expressionExpected
  | _, .arguments => do
    if (← lexeme?) = some (.symbol ')') then
      advance
      return []
    else call .moreArguments
  | _, .moreArguments => do
    let arg ← call .expression
    match ← lexeme? with
    | some (.symbol ')') =>
      advance
      return [arg]
    | some (.symbol ',') =>
      advance
      return arg :: (← call .moreArguments)
    | _ => refuse .argumentEndExpected
  | _, .conditional => do
    let condition ← call .expression
    expectKeyword .thenWord .thenExpected
    let thenBranch ← call .expression
    expectKeyword .elseWord .elseExpected
    let elseBranch ← call .expression
    return .cond condition thenBranch elseBranch
  | _, .loop => do
    let name ← expectIdentifier .loopNameExpected
    expectSymbol '=' .loopAssignExpected
    let start ← call .expression
    expectSymbol ',' .loopEndExpected
    let finish ← call .expression
    let step ← call .step
    expectKeyword .inWord .loopInExpected
    let body ← call .expression
    return .loop name start finish step body
  | _, .step => do
    if (← lexeme?) = some (.symbol ',') then
      advance
      return some (← call .expression)
    else return none
  | _, .locals => do
    let bindings ← call (.bindings .localExpected)
    expectKeyword .inWord .localsInExpected
    let body ← call .expression
    return .locals bindings body
  | _, .bindings missing => do
    let name ← expectIdentifier missing
    let value ← call .initial
    if (← lexeme?) = some (.symbol ',') then
      advance
      return (name, value) :: (← call (.bindings .nextLocalExpected))
    else return [(name, value)]
  | _, .initial => do
    if (← lexeme?) = some (.symbol '=') then
      advance
      return some (← call .expression)
    else return none
  | _, .names => do
    match ← lexeme? with
    | some (.identifier name) =>
      advance
      return name :: (← call .names)
    | _ => return []
  | _, .prototype => do
    let (name, kind) ← expectHead
    expectSymbol '(' .parametersExpected
    let params ← call .names
    expectSymbol ')' .parametersEndExpected
    if (kind.operands?.getD params.length) = params.length then return ⟨name, params, kind⟩
    else refuse .operandCountWrong
  | _, .definition => do
    advance
    let prototype ← call .prototype
    let body ← call .expression
    return ⟨prototype, body⟩
  | _, .declaration => do
    advance
    call .prototype
  | _, .item => do
    match ← lexeme? with
    | some (.keyword .definition) => return .definition (← call .definition)
    | some (.keyword .declaration) => return .declaration (← call .declaration)
    | _ => return .expression (← call .expression)

-- one equation for each procedure, by which the proofs about it open its body
attribute [local simp] body

/-- What a procedure does if calls may be nested to a certain depth only. -/
def attempt (ops : OperatorTable) : Nat → {α : Type} → Procedure α → Attempt α
  | 0, _, _ => never
  | depth + 1, _, p => p.body ops (attempt ops depth)

/-- What the reader of the same name comes to. -/
def read (ops : OperatorTable) (ts : Tokens) :
    {α : Type} → Procedure α → Except SyntaxError α × Tokens
  | _, .expression => (Grammar.expression ops ts).result
  | _, .operand => (Grammar.operand ops ts).result
  | _, .chain least left => (Grammar.chain ops least left ts).result
  | _, .primary => (Grammar.primary ops ts).result
  | _, .arguments => (Grammar.arguments ops ts).result
  | _, .moreArguments => (Grammar.moreArguments ops ts).result
  | _, .conditional => (Grammar.conditional ops ts).result
  | _, .loop => (Grammar.loop ops ts).result
  | _, .step => (Grammar.step ops ts).result
  | _, .locals => (Grammar.locals ops ts).result
  | _, .bindings missing => (Grammar.bindings ops missing ts).result
  | _, .initial => (Grammar.initial ops ts).result
  | _, .names => (Grammar.names ts).result
  | _, .prototype => (Grammar.prototype ts).result
  | _, .definition => (Grammar.definition ops ts).result
  | _, .declaration => (Grammar.declaration ts).result
  | _, .item => (Grammar.item ops ts).result

/-- How far a procedure may call others before a token is consumed. -/
def weight : {α : Type} → Procedure α → Nat
  | _, .expression => 3
  | _, .operand => 2
  | _, .chain _ _ => 0
  | _, .primary => 1
  | _, .arguments => 5
  | _, .moreArguments => 4
  | _, .conditional => 4
  | _, .loop => 4
  | _, .step => 0
  | _, .locals => 4
  | _, .bindings _ => 3
  | _, .initial => 0
  | _, .names => 0
  | _, .prototype => 1
  | _, .definition => 4
  | _, .declaration => 2
  | _, .item => 5

end Procedure

namespace Attempt

variable {α β : Type} {gain cost : Nat} {start ts : Tokens}

theorem lexeme?_bind {k : Option Lexeme → Attempt α} {found : Option Lexeme}
    (h : ts.lexeme? = found) : (lexeme? >>= k).run ts = (k found).run ts := by
  subst h
  rfl

theorem operator?_bind {ops : OperatorTable} {k : Option (Char × Int) → Attempt α}
    {found : Option (Char × Int)} (h : ts.operator? ops = found) :
    (operator? ops >>= k).run ts = (k found).run ts := by
  subst h
  rfl

theorem advance_bind (k : Unit → Attempt α) (ts : Tokens) :
    (advance >>= k).run ts = (k ()).run ts.tail := rfl

/-- Sequences of attempts and of readers come to the same if their parts do. -/
theorem bind_andThen {m : Attempt α} {k : α → Attempt β} {p : Parsed α gain start}
    {next : α → (rest : Tokens) → rest.size + gain ≤ start.size → Parsed β cost rest}
    (hm : m.run ts = some p.result)
    (hk : ∀ a rest bound, (k a).run rest = some (next a rest bound).result) :
    (m >>= k).run ts = some (p.andThen next).result := by
  simp only [bind, hm]
  cases p with
  | error problem rest bound => rfl
  | ok a mid reached =>
      change (k a).run mid = _
      rw [hk a mid reached, Parsed.andThen]
      cases next a mid reached <;> rfl

theorem bind_yield {m : Attempt α} {p : Parsed α gain start} (f : α → β)
    (hm : m.run ts = some p.result) :
    (m >>= fun a => pure (f a)).run ts = some (p.map f).result := by
  simp only [bind, hm]
  cases p <;> rfl

theorem result_relax (p : Parsed α gain start) : p.relax.result = p.result := by
  cases p <;> rfl

theorem result_behind (p : Parsed α gain ts) (reached : ts.size ≤ start.size) :
    (p.behind reached).result = p.result := by
  cases p <;> rfl

theorem expectSymbol_eq (c : Char) (fault : SyntaxFault) (ts : Tokens) :
    (expectSymbol c fault).run ts = some (Grammar.symbol c fault ts).result := by
  unfold expectSymbol Grammar.symbol
  rw [lexeme?_bind rfl]
  split <;> rfl

theorem expectKeyword_eq (word : Keyword) (fault : SyntaxFault) (ts : Tokens) :
    (expectKeyword word fault).run ts = some (Grammar.keyword word fault ts).result := by
  unfold expectKeyword Grammar.keyword
  rw [lexeme?_bind rfl]
  split <;> rfl

theorem expectIdentifier_eq (fault : SyntaxFault) (ts : Tokens) :
    (expectIdentifier fault).run ts = some (Grammar.identifier fault ts).result := by
  unfold expectIdentifier Grammar.identifier
  split
  · next name hname =>
      rw [lexeme?_bind hname]
      rfl
  · next hnot =>
      rw [lexeme?_bind rfl]
      split
      · next name hname => exact (hnot name hname).elim
      · rfl

theorem expectOperator_eq (fault : SyntaxFault) (ts : Tokens) :
    (expectOperator fault).run ts = some (Grammar.operatorSymbol fault ts).result := by
  unfold expectOperator Grammar.operatorSymbol
  split
  · next op hop =>
      rw [lexeme?_bind hop]
      rfl
  · next hnot =>
      rw [lexeme?_bind rfl]
      split
      · next op hop => exact (hnot op hop).elim
      · rfl

theorem optionalPrecedence_eq (ts : Tokens) :
    optionalPrecedence.run ts = some (Grammar.precedence ts).result := by
  unfold optionalPrecedence Grammar.precedence
  split
  · next value hvalue =>
      rw [lexeme?_bind hvalue]
      dsimp only
      cases precedenceOf? value <;> rfl
  · next hnot =>
      rw [lexeme?_bind rfl]
      split
      · next value hvalue => exact (hnot value hvalue).elim
      · rfl

theorem expectHead_eq (ts : Tokens) :
    expectHead.run ts = some (Grammar.prototypeHead ts).result := by
  unfold expectHead Grammar.prototypeHead
  split
  · next name hname =>
      rw [lexeme?_bind hname]
      rfl
  · next hunary =>
      rw [lexeme?_bind hunary]
      refine bind_andThen rfl fun _ rest _ => ?_
      exact bind_yield _ (expectOperator_eq _ _)
  · next hbinary =>
      rw [lexeme?_bind hbinary]
      refine bind_andThen rfl fun _ rest _ => ?_
      refine bind_andThen (expectOperator_eq _ _) fun op rest _ => ?_
      exact bind_yield _ (optionalPrecedence_eq _)
  · next hname hunary hbinary =>
      rw [lexeme?_bind rfl]
      split
      · next name h => exact (hname name h).elim
      · next h => exact (hunary h).elim
      · next h => exact (hbinary h).elim
      · rfl

theorem yieldsTighter_bind (ops : OperatorTable) (precedence : Int) (k : Bool → Attempt α)
    (ts : Tokens) :
    (yieldsTighter ops precedence >>= k).run ts = (k (ts.yieldsTighter ops precedence)).run ts := by
  have hlook : (yieldsTighter ops precedence).run ts =
      some (.ok (ts.yieldsTighter ops precedence), ts) := by
    unfold yieldsTighter Tokens.yieldsTighter
    rw [operator?_bind rfl]
    cases ts.operator? ops <;> rfl
  simp only [bind, hlook]

end Attempt

namespace Procedure

open Attempt

variable {ops : OperatorTable} {ts : Tokens} {call : {β : Type} → Procedure β → Attempt β}

/-- Calls that are made after a token was consumed, or else to procedures of a smaller weight,
come to what the readers come to. -/
structure Serves (ops : OperatorTable) (call : {β : Type} → Procedure β → Attempt β)
    (weight : Nat) (ts : Tokens) : Prop where
  inner : ∀ {β : Type} (q : Procedure β), q.weight < weight → ∀ rest : Tokens,
    rest.size ≤ ts.size → (call q).run rest = some (q.read ops rest)
  later : ∀ {β : Type} (q : Procedure β) (rest : Tokens), rest.size < ts.size →
    (call q).run rest = some (q.read ops rest)

theorem body_expression (h : Serves ops call expression.weight ts) :
    (body ops call .expression).run ts = some (expression.read ops ts) := by
  rw [body, read, Grammar.expression]
  refine bind_andThen (h.inner .operand (by decide) ts (Nat.le_refl _)) fun left rest _ => ?_
  exact h.later (.chain 0 left) rest (by omega)

theorem body_operand (h : Serves ops call operand.weight ts) :
    (body ops call .operand).run ts = some (operand.read ops ts) := by
  have hprimary := h.inner .primary (by decide) ts (Nat.le_refl _)
  rw [body, read, Grammar.operand]
  split
  · next c hc =>
      rw [lexeme?_bind hc]
      dsimp only
      split
      · exact hprimary
      · refine bind_andThen rfl fun _ rest _ => ?_
        exact bind_yield _ (h.later .operand rest (by omega))
  · next hnot =>
      rw [lexeme?_bind rfl]
      split
      · next c hc => exact (hnot c hc).elim
      · exact hprimary

theorem body_chain (least : Int) (left : Expr)
    (h : Serves ops call (chain least left).weight ts) :
    (body ops call (.chain least left)).run ts = some ((chain least left).read ops ts) := by
  rw [body, read, Grammar.chain]
  split
  · next hnone =>
      rw [operator?_bind hnone]
      rfl
  · next op precedence hop =>
      have htail := Tokens.size_tail_of_operator? hop
      rw [operator?_bind hop]
      dsimp only
      split
      · rfl
      · rw [result_behind, result_relax, advance_bind]
        refine bind_andThen (h.later .operand ts.tail (by omega)) fun right rest _ => ?_
        rw [yieldsTighter_bind]
        refine bind_andThen ?_ fun right last _ => h.later (.chain least _) last (by omega)
        split
        · exact h.later (.chain (precedence + 1) right) rest (by omega)
        · rfl

theorem body_primary (h : Serves ops call primary.weight ts) :
    (body ops call .primary).run ts = some (primary.read ops ts) := by
  rw [body, read, Grammar.primary]
  split
  · next value hvalue =>
      rw [lexeme?_bind hvalue]
      rfl
  · next name hname =>
      rw [lexeme?_bind hname]
      refine bind_andThen rfl fun _ rest _ => ?_
      rw [lexeme?_bind rfl]
      split
      · rw [result_relax]
        refine bind_andThen rfl fun _ last _ => ?_
        exact bind_yield _ (h.later .arguments last (by omega))
      · rfl
  · next hopen =>
      rw [lexeme?_bind hopen]
      refine bind_andThen rfl fun _ rest _ => ?_
      refine bind_andThen (h.later .expression rest (by omega)) fun value last _ => ?_
      exact bind_yield _ (expectSymbol_eq _ _ _)
  · next hif =>
      rw [lexeme?_bind hif]
      exact bind_andThen rfl fun _ rest _ => h.later .conditional rest (by omega)
  · next hfor =>
      rw [lexeme?_bind hfor]
      exact bind_andThen rfl fun _ rest _ => h.later .loop rest (by omega)
  · next hvar =>
      rw [lexeme?_bind hvar]
      exact bind_andThen rfl fun _ rest _ => h.later .locals rest (by omega)
  · next hnumber hname hopen hif hfor hvar =>
      rw [lexeme?_bind rfl]
      split
      · next value hvalue => exact (hnumber value hvalue).elim
      · next name hfound => exact (hname name hfound).elim
      · next hfound => exact (hopen hfound).elim
      · next hfound => exact (hif hfound).elim
      · next hfound => exact (hfor hfound).elim
      · next hfound => exact (hvar hfound).elim
      · rfl

theorem body_arguments (h : Serves ops call arguments.weight ts) :
    (body ops call .arguments).run ts = some (arguments.read ops ts) := by
  rw [body, read, Grammar.arguments, lexeme?_bind rfl]
  split
  · rfl
  · exact h.inner .moreArguments (by decide) ts (Nat.le_refl _)

theorem body_moreArguments (h : Serves ops call moreArguments.weight ts) :
    (body ops call .moreArguments).run ts = some (moreArguments.read ops ts) := by
  rw [body, read, Grammar.moreArguments]
  refine bind_andThen (h.inner .expression (by decide) ts (Nat.le_refl _)) fun arg rest _ => ?_
  split
  · next hclose =>
      rw [lexeme?_bind hclose]
      rfl
  · next hcomma =>
      rw [lexeme?_bind hcomma]
      refine bind_andThen rfl fun _ last _ => ?_
      exact bind_yield _ (h.later .moreArguments last (by omega))
  · next hclose hcomma =>
      rw [lexeme?_bind rfl]
      split
      · next hfound => exact (hclose hfound).elim
      · next hfound => exact (hcomma hfound).elim
      · rfl

theorem body_conditional (h : Serves ops call conditional.weight ts) :
    (body ops call .conditional).run ts = some (conditional.read ops ts) := by
  have hexpression := h.inner .expression (by decide)
  rw [body, read, Grammar.conditional]
  refine bind_andThen (hexpression ts (Nat.le_refl _)) fun condition rest _ => ?_
  refine bind_andThen (expectKeyword_eq _ _ _) fun _ rest _ => ?_
  refine bind_andThen (hexpression rest (by omega)) fun thenBranch rest _ => ?_
  refine bind_andThen (expectKeyword_eq _ _ _) fun _ rest _ => ?_
  exact bind_yield _ (hexpression rest (by omega))

theorem body_loop (h : Serves ops call loop.weight ts) :
    (body ops call .loop).run ts = some (loop.read ops ts) := by
  have hexpression := h.inner .expression (by decide)
  rw [body, read, Grammar.loop]
  refine bind_andThen (expectIdentifier_eq _ _) fun name rest _ => ?_
  refine bind_andThen (expectSymbol_eq _ _ _) fun _ rest _ => ?_
  refine bind_andThen (hexpression rest (by omega)) fun start rest _ => ?_
  refine bind_andThen (expectSymbol_eq _ _ _) fun _ rest _ => ?_
  refine bind_andThen (hexpression rest (by omega)) fun finish rest _ => ?_
  refine bind_andThen (h.later .step rest (by omega)) fun step rest _ => ?_
  refine bind_andThen (expectKeyword_eq _ _ _) fun _ rest _ => ?_
  exact bind_yield _ (hexpression rest (by omega))

theorem body_step (h : Serves ops call step.weight ts) :
    (body ops call .step).run ts = some (step.read ops ts) := by
  rw [body, read, Grammar.step, lexeme?_bind rfl]
  split
  · rw [result_relax]
    refine bind_andThen rfl fun _ rest _ => ?_
    exact bind_yield _ (h.later .expression rest (by omega))
  · rfl

theorem body_locals (h : Serves ops call locals.weight ts) :
    (body ops call .locals).run ts = some (locals.read ops ts) := by
  have hbindings := h.inner (.bindings .localExpected) (by decide) ts (Nat.le_refl _)
  rw [body, read, Grammar.locals]
  refine bind_andThen hbindings fun bindings rest _ => ?_
  refine bind_andThen (expectKeyword_eq _ _ _) fun _ rest _ => ?_
  exact bind_yield _ (h.later .expression rest (by omega))

theorem body_bindings (missing : SyntaxFault)
    (h : Serves ops call (bindings missing).weight ts) :
    (body ops call (.bindings missing)).run ts = some ((bindings missing).read ops ts) := by
  rw [body, read, Grammar.bindings]
  refine bind_andThen (expectIdentifier_eq _ _) fun name rest _ => ?_
  refine bind_andThen (h.later .initial rest (by omega)) fun value rest _ => ?_
  rw [lexeme?_bind rfl]
  split
  · rw [result_relax]
    refine bind_andThen rfl fun _ last _ => ?_
    exact bind_yield _ (h.later (.bindings _) last (by omega))
  · rfl

theorem body_initial (h : Serves ops call initial.weight ts) :
    (body ops call .initial).run ts = some (initial.read ops ts) := by
  rw [body, read, Grammar.initial, lexeme?_bind rfl]
  split
  · rw [result_relax]
    refine bind_andThen rfl fun _ rest _ => ?_
    exact bind_yield _ (h.later .expression rest (by omega))
  · rfl

theorem body_names (h : Serves ops call names.weight ts) :
    (body ops call .names).run ts = some (names.read ops ts) := by
  obtain ⟨pending, finish⟩ := ts
  rw [body, read]
  cases pending with
  | nil => rfl
  | cons token pending =>
      obtain ⟨lexeme, span⟩ := token
      cases lexeme with
      | identifier name =>
          -- the names at the front are the current one and those at the front of the others
          have hothers := h.later .names ⟨pending, finish⟩ (Nat.lt_succ_self _)
          rw [lexeme?_bind rfl]
          exact bind_yield (p := Grammar.names ⟨pending, finish⟩) (name :: ·) hothers
      | _ => rfl

theorem body_prototype (h : Serves ops call prototype.weight ts) :
    (body ops call .prototype).run ts = some (prototype.read ops ts) := by
  rw [body, read, Grammar.prototype]
  refine bind_andThen (expectHead_eq _) fun head rest _ => ?_
  refine bind_andThen (expectSymbol_eq _ _ _) fun _ rest _ => ?_
  refine bind_andThen (h.later .names rest (by omega)) fun params rest _ => ?_
  refine bind_andThen (expectSymbol_eq _ _ _) fun _ rest _ => ?_
  split <;> rfl

theorem body_definition (h : Serves ops call definition.weight ts) :
    (body ops call .definition).run ts = some (definition.read ops ts) := by
  have htail := ts.size_tail_le
  rw [body, read, Grammar.definition, result_behind, advance_bind]
  refine bind_andThen (h.inner .prototype (by decide) ts.tail htail) fun prototype rest _ => ?_
  exact bind_yield _ (h.later .expression rest (by omega))

theorem body_declaration (h : Serves ops call declaration.weight ts) :
    (body ops call .declaration).run ts = some (declaration.read ops ts) := by
  rw [body, read, Grammar.declaration, result_behind, advance_bind]
  exact h.inner .prototype (by decide) ts.tail ts.size_tail_le

theorem body_item (h : Serves ops call item.weight ts) :
    (body ops call .item).run ts = some (item.read ops ts) := by
  rw [body, read, Grammar.item]
  split
  · next hdefinition =>
      rw [lexeme?_bind hdefinition]
      exact bind_yield _ (h.inner .definition (by decide) ts (Nat.le_refl _))
  · next hdeclaration =>
      rw [lexeme?_bind hdeclaration]
      exact bind_yield _ (h.inner .declaration (by decide) ts (Nat.le_refl _))
  · next hdefinition hdeclaration =>
      rw [lexeme?_bind rfl]
      split
      · next hfound => exact (hdefinition hfound).elim
      · next hfound => exact (hdeclaration hfound).elim
      · exact bind_yield _ (h.inner .expression (by decide) ts (Nat.le_refl _))

/-- One layer: a procedure comes to what its reader does if its calls do. -/
theorem body_eq_read {α : Type} (p : Procedure α) (h : Serves ops call p.weight ts) :
    (body ops call p).run ts = some (p.read ops ts) := by
  cases p with
  | expression => exact body_expression h
  | operand => exact body_operand h
  | chain least left => exact body_chain least left h
  | primary => exact body_primary h
  | arguments => exact body_arguments h
  | moreArguments => exact body_moreArguments h
  | conditional => exact body_conditional h
  | loop => exact body_loop h
  | step => exact body_step h
  | locals => exact body_locals h
  | bindings missing => exact body_bindings missing h
  | initial => exact body_initial h
  | names => exact body_names h
  | prototype => exact body_prototype h
  | definition => exact body_definition h
  | declaration => exact body_declaration h
  | item => exact body_item h

theorem weight_lt {α : Type} (p : Procedure α) : p.weight < 6 := by
  cases p <;> simp [weight]

/-- **Every procedure comes to its end**, with what the reader of the same name comes to, if
calls may be nested deep enough: six deep for each token that is left, and as deep as the
weight of the procedure before a token is consumed. -/
theorem attempt_eq_read (ops : OperatorTable) {α : Type} (p : Procedure α) (ts : Tokens)
    {depth : Nat} (hdepth : 6 * ts.size + p.weight < depth) :
    (p.attempt ops depth).run ts = some (p.read ops ts) := by
  induction depth generalizing α ts with
  | zero => exact absurd hdepth (Nat.not_lt_zero _)
  | succ depth ih =>
      rw [attempt]
      refine p.body_eq_read ⟨fun q hweight rest hrest => ih q rest ?_,
        fun q rest hrest => ih q rest ?_⟩
      · omega
      · have hweight := q.weight_lt
        omega

end Procedure

end Grammar

end Reckon
