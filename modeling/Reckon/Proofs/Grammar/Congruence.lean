import Reckon.Proofs.Grammar.Procedures

/-!
# What procedures cannot tell apart

A procedure of the grammar is a sequence of single steps: it looks at the current token,
advances, refuses a token or calls another procedure.  So a relation between attempts that
single steps and sequences keep (`Attempt.Congruence`) holds of every procedure, however deep
its calls are nested (`Attempt.Congruence.attempt`).  What is true of all procedures for the
same reason is proved by giving such a relation.
-/

namespace Reckon

namespace Grammar

namespace Attempt

/-- A relation between attempts, against one table and against another, that the single steps
satisfy and that sequences keep. -/
structure Congruence (ops ops' : OperatorTable) (R : {α : Type} → Attempt α → Attempt α → Prop) :
    Prop where
  never : ∀ {α : Type}, R (never : Attempt α) never
  pure : ∀ {α : Type} (a : α), R (Pure.pure a) (Pure.pure a)
  lexeme? : R lexeme? lexeme?
  operator? : R (operator? ops) (operator? ops')
  advance : R advance advance
  refuse : ∀ {α : Type} (fault : SyntaxFault), R (refuse fault : Attempt α) (refuse fault)
  bind : ∀ {α β : Type} {m m' : Attempt α} {k k' : α → Attempt β}, R m m' →
    (∀ a, R (k a) (k' a)) → R (m >>= k) (m' >>= k')

namespace Congruence

open Procedure

variable {ops ops' : OperatorTable} {R : {α : Type} → Attempt α → Attempt α → Prop}
  (hR : Congruence ops ops' R)

include hR

theorem expectSymbol (c : Char) (fault : SyntaxFault) :
    R (Attempt.expectSymbol c fault) (Attempt.expectSymbol c fault) := by
  refine hR.bind hR.lexeme? fun found => ?_
  split
  · exact hR.advance
  · exact hR.refuse _

theorem expectKeyword (word : Keyword) (fault : SyntaxFault) :
    R (Attempt.expectKeyword word fault) (Attempt.expectKeyword word fault) := by
  refine hR.bind hR.lexeme? fun found => ?_
  split
  · exact hR.advance
  · exact hR.refuse _

theorem expectIdentifier (fault : SyntaxFault) :
    R (Attempt.expectIdentifier fault) (Attempt.expectIdentifier fault) := by
  refine hR.bind hR.lexeme? fun found => ?_
  split
  · exact hR.bind hR.advance fun _ => hR.pure _
  · exact hR.refuse _

theorem expectOperator (fault : SyntaxFault) :
    R (Attempt.expectOperator fault) (Attempt.expectOperator fault) := by
  refine hR.bind hR.lexeme? fun found => ?_
  split
  · exact hR.bind hR.advance fun _ => hR.pure _
  · exact hR.refuse _

theorem optionalPrecedence : R Attempt.optionalPrecedence Attempt.optionalPrecedence := by
  refine hR.bind hR.lexeme? fun found => ?_
  split
  · split
    · exact hR.bind hR.advance fun _ => hR.pure _
    · exact hR.refuse _
  · exact hR.pure _

theorem expectHead : R Attempt.expectHead Attempt.expectHead := by
  refine hR.bind hR.lexeme? fun found => ?_
  split
  · exact hR.bind hR.advance fun _ => hR.pure _
  · exact hR.bind hR.advance fun _ => hR.bind (hR.expectOperator _) fun _ => hR.pure _
  · refine hR.bind hR.advance fun _ => hR.bind (hR.expectOperator _) fun _ => ?_
    exact hR.bind hR.optionalPrecedence fun _ => hR.pure _
  · exact hR.refuse _

theorem yieldsTighter (precedence : Int) :
    R (Attempt.yieldsTighter ops precedence) (Attempt.yieldsTighter ops' precedence) := by
  refine hR.bind hR.operator? fun found => ?_
  split
  · exact hR.pure _
  · exact hR.pure _

/-- A procedure keeps a relation that the procedures that it calls keep. -/
theorem body {call call' : {β : Type} → Procedure β → Attempt β}
    (h : ∀ {β : Type} (q : Procedure β), R (call q) (call' q)) {α : Type} (p : Procedure α) :
    R (p.body ops call) (p.body ops' call') := by
  cases p with
  | expression =>
      rw [Procedure.body, Procedure.body]
      exact hR.bind (h _) fun left => h _
  | operand =>
      rw [Procedure.body, Procedure.body]
      refine hR.bind hR.lexeme? fun found => ?_
      split
      · split
        · exact h _
        · exact hR.bind hR.advance fun _ => hR.bind (h _) fun _ => hR.pure _
      · exact h _
  | chain least left =>
      rw [Procedure.body, Procedure.body]
      refine hR.bind hR.operator? fun found => ?_
      split
      · exact hR.pure _
      · split
        · exact hR.pure _
        · refine hR.bind hR.advance fun _ => hR.bind (h _) fun right => ?_
          refine hR.bind (hR.yieldsTighter _) fun tighter => hR.bind ?_ fun right => h _
          split
          · exact h _
          · exact hR.pure _
  | primary =>
      rw [Procedure.body, Procedure.body]
      refine hR.bind hR.lexeme? fun found => ?_
      split
      · exact hR.bind hR.advance fun _ => hR.pure _
      · refine hR.bind hR.advance fun _ => hR.bind hR.lexeme? fun found => ?_
        split
        · exact hR.bind hR.advance fun _ => hR.bind (h _) fun _ => hR.pure _
        · exact hR.pure _
      · refine hR.bind hR.advance fun _ => hR.bind (h _) fun _ => ?_
        exact hR.bind (hR.expectSymbol _ _) fun _ => hR.pure _
      · exact hR.bind hR.advance fun _ => h _
      · exact hR.bind hR.advance fun _ => h _
      · exact hR.bind hR.advance fun _ => h _
      · exact hR.refuse _
  | arguments =>
      rw [Procedure.body, Procedure.body]
      refine hR.bind hR.lexeme? fun found => ?_
      split
      · exact hR.bind hR.advance fun _ => hR.pure _
      · exact h _
  | moreArguments =>
      rw [Procedure.body, Procedure.body]
      refine hR.bind (h _) fun arg => hR.bind hR.lexeme? fun found => ?_
      split
      · exact hR.bind hR.advance fun _ => hR.pure _
      · exact hR.bind hR.advance fun _ => hR.bind (h _) fun _ => hR.pure _
      · exact hR.refuse _
  | conditional =>
      rw [Procedure.body, Procedure.body]
      refine hR.bind (h _) fun condition => hR.bind (hR.expectKeyword _ _) fun _ => ?_
      refine hR.bind (h _) fun thenBranch => hR.bind (hR.expectKeyword _ _) fun _ => ?_
      exact hR.bind (h _) fun elseBranch => hR.pure _
  | loop =>
      rw [Procedure.body, Procedure.body]
      refine hR.bind (hR.expectIdentifier _) fun name => hR.bind (hR.expectSymbol _ _) fun _ => ?_
      refine hR.bind (h _) fun start => hR.bind (hR.expectSymbol _ _) fun _ => ?_
      refine hR.bind (h _) fun finish => hR.bind (h _) fun step => ?_
      exact hR.bind (hR.expectKeyword _ _) fun _ => hR.bind (h _) fun body => hR.pure _
  | step =>
      rw [Procedure.body, Procedure.body]
      refine hR.bind hR.lexeme? fun found => ?_
      split
      · exact hR.bind hR.advance fun _ => hR.bind (h _) fun _ => hR.pure _
      · exact hR.pure _
  | locals =>
      rw [Procedure.body, Procedure.body]
      refine hR.bind (h _) fun bindings => hR.bind (hR.expectKeyword _ _) fun _ => ?_
      exact hR.bind (h _) fun body => hR.pure _
  | bindings missing =>
      rw [Procedure.body, Procedure.body]
      refine hR.bind (hR.expectIdentifier _) fun name => hR.bind (h _) fun value => ?_
      refine hR.bind hR.lexeme? fun found => ?_
      split
      · exact hR.bind hR.advance fun _ => hR.bind (h _) fun _ => hR.pure _
      · exact hR.pure _
  | initial =>
      rw [Procedure.body, Procedure.body]
      refine hR.bind hR.lexeme? fun found => ?_
      split
      · exact hR.bind hR.advance fun _ => hR.bind (h _) fun _ => hR.pure _
      · exact hR.pure _
  | names =>
      rw [Procedure.body, Procedure.body]
      refine hR.bind hR.lexeme? fun found => ?_
      split
      · exact hR.bind hR.advance fun _ => hR.bind (h _) fun _ => hR.pure _
      · exact hR.pure _
  | prototype =>
      rw [Procedure.body, Procedure.body]
      refine hR.bind hR.expectHead fun head => hR.bind (hR.expectSymbol _ _) fun _ => ?_
      refine hR.bind (h _) fun params => hR.bind (hR.expectSymbol _ _) fun _ => ?_
      split
      · exact hR.pure _
      · exact hR.refuse _
  | definition =>
      rw [Procedure.body, Procedure.body]
      refine hR.bind hR.advance fun _ => hR.bind (h _) fun prototype => ?_
      exact hR.bind (h _) fun body => hR.pure _
  | declaration =>
      rw [Procedure.body, Procedure.body]
      exact hR.bind hR.advance fun _ => h _
  | item =>
      rw [Procedure.body, Procedure.body]
      refine hR.bind hR.lexeme? fun found => ?_
      split
      · exact hR.bind (h _) fun _ => hR.pure _
      · exact hR.bind (h _) fun _ => hR.pure _
      · exact hR.bind (h _) fun _ => hR.pure _

/-- **What single steps and sequences keep, every procedure keeps.** -/
theorem attempt (depth : Nat) {α : Type} (p : Procedure α) :
    R (p.attempt ops depth) (p.attempt ops' depth) := by
  induction depth generalizing α with
  | zero => exact hR.never
  | succ depth ih =>
      rw [Procedure.attempt, Procedure.attempt]
      exact hR.body (fun q => ih q) p

end Congruence

end Attempt

end Grammar

end Reckon
