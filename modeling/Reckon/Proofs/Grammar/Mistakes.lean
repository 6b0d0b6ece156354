import Reckon.Proofs.Grammar.Lookahead

/-!
# The place of a mistake

A reader that stops at a mistake says where the token stands that does not fit.  That token is
the current one of those that are left, and those are the last ones of the input
(`Grammar.StopsAtMistake`), so nothing is skipped and nothing is read twice on the way there.

Only a refusal makes a mistake, and it names the place of the current token.  What is called
before a mistake is noticed, and how many procedures pass the mistake on, does not matter
(`Grammar.Attempt.Points.congruence`).
-/

namespace Reckon

/-- The tokens that are dropped come before those that are left. -/
theorem Tokens.take_append_drop (ts : Tokens) (n : Nat) :
    ts = { ts.drop n with pending := ts.pending.take n ++ (ts.drop n).pending } := by
  simp [Tokens.drop]

namespace Grammar

namespace Attempt

variable {α β : Type}

/-- A mistake is placed at the current token of those that are left. -/
def Points (m : Attempt α) : Prop :=
  ∀ ts problem rest, m.run ts = some (.error problem, rest) → problem.span = rest.span

namespace Points

theorem refuse (fault : SyntaxFault) : (Attempt.refuse fault : Attempt α).Points := by
  intro ts problem rest hrun
  cases hrun
  rfl

/-- The second part of a sequence finds the tokens as the first part leaves them. -/
theorem bind {m : Attempt α} {k : α → Attempt β} (hm : m.Points) (hk : ∀ a, (k a).Points) :
    (m >>= k).Points := by
  intro ts problem rest hrun
  simp only [Bind.bind] at hrun
  split at hrun
  · cases hrun
  · next found mid hfirst =>
      cases hrun
      exact hm ts problem rest hfirst
  · next a mid hfirst => exact hk a mid problem rest hrun

theorem congruence (ops : OperatorTable) : Congruence ops ops fun m _ => m.Points where
  never := fun _ _ _ h => by cases h
  pure _ := fun _ _ _ h => by cases h
  lexeme? := fun _ _ _ h => by cases h
  operator? := fun _ _ _ h => by cases h
  advance := fun _ _ _ h => by cases h
  refuse := refuse
  bind := bind

end Points

end Attempt

/-- A reader stops at a mistake before the token that it blames: the token, or the end of the
input, is the first thing that is left.  What is left is the end of the input that was given,
so every token before the mistake has been consumed once. -/
def StopsAtMistake {α : Type} {gain : Nat}
    (reader : OperatorTable → (ts : Tokens) → Parsed α gain ts) : Prop :=
  ∀ ops ts problem rest bound, reader ops ts = .error problem rest bound →
    problem.span = rest.span ∧
      ∃ consumed, ts = { rest with pending := consumed ++ rest.pending }

/-- A reader that a procedure stands for stops at its mistakes. -/
theorem StopsAtMistake.of_read {α : Type} {gain : Nat}
    {reader : OperatorTable → (ts : Tokens) → Parsed α gain ts} (p : Procedure α)
    (h : ∀ ops ts, p.read ops ts = (reader ops ts).result) : StopsAtMistake reader := by
  intro ops ts problem rest bound hmistake
  have hread : p.read ops ts = (.error problem, rest) := by
    rw [h, hmistake]
    rfl
  constructor
  · have hrun := p.attempt_eq_read ops ts (Nat.lt_succ_self (6 * ts.size + p.weight))
    rw [hread] at hrun
    exact (Attempt.Points.congruence ops).attempt _ p ts problem rest hrun
  · obtain ⟨-, hrest, -⟩ := p.read_lookahead ops ts
    rw [hread] at hrest
    dsimp only at hrest
    rw [hrest]
    exact ⟨_, ts.take_append_drop _⟩

/-- What is made of a value does not matter to mistakes. -/
theorem StopsAtMistake.map {α β : Type} {gain : Nat}
    {reader : OperatorTable → (ts : Tokens) → Parsed α gain ts} (h : StopsAtMistake reader)
    (f : α → β) : StopsAtMistake fun ops ts => (reader ops ts).map f := by
  intro ops ts problem rest bound hmistake
  dsimp only at hmistake
  cases hfound : reader ops ts with
  | ok value rest' bound' =>
      rw [hfound] at hmistake
      cases hmistake
  | error problem' rest' bound' =>
      rw [hfound] at hmistake
      cases hmistake
      exact h ops ts _ _ _ hfound

theorem item_stopsAtMistake : StopsAtMistake item := .of_read .item fun _ _ => rfl

theorem definition_stopsAtMistake : StopsAtMistake definition :=
  .of_read .definition fun _ _ => rfl

theorem declaration_stopsAtMistake : StopsAtMistake fun _ => declaration :=
  .of_read .declaration fun _ _ => rfl

theorem expression_stopsAtMistake : StopsAtMistake expression :=
  .of_read .expression fun _ _ => rfl

end Grammar

end Reckon
